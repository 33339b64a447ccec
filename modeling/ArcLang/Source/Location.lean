/-!
# Places in a text

A `Position` counts from the front of a text and moves over characters. A `Location` is what a
diagnostic or a token says: a file and three numbers, which a producer outside this library may
choose freely, so they are integers. A `Span` is a half-open range between two locations.

* `Position.after_append`: moving over two texts in turn is moving over both at once.
* `Position.offset_after`: the offset grows by one for each character.
-/

namespace ArcLang

/-- A place in a file, as reported: lines and columns from one, the offset from zero. -/
structure Location where
  file : String
  line : Int
  column : Int
  offset : Int
  deriving DecidableEq, Inhabited

namespace Location

/-- The start of a file. -/
def start (file : String) : Location := ⟨file, 1, 1, 0⟩

/-- File, line and column, as diagnostics open with. -/
def text (l : Location) : String := s!"{l.file}:{l.line}:{l.column}"

end Location

/-- The largest size of anything that is measured: what 63 bits hold. -/
def maxSize : Int := 9223372036854775807

/-- The half-open range from `start` to `stop`. -/
structure Span where
  start : Location
  stop : Location
  deriving DecidableEq, Inhabited

namespace Span

/-- The empty span at a location. -/
def point (l : Location) : Span := ⟨l, l⟩

/-- From the start of `a` to the end of `b`. -/
def upTo (a b : Span) : Span := ⟨a.start, b.stop⟩

/-- The number of characters covered; negative when the ends are out of order. -/
def width (s : Span) : Int := s.stop.offset - s.start.offset

/-- Why a span has no size. -/
inductive SizeFault
  /-- The ends are out of order. -/
  | negative
  /-- The size is beyond `maxSize`. -/
  | tooLarge

namespace SizeFault

/-- The interpreter's own words. -/
def message : SizeFault → String
  | negative => "__len__() should return >= 0"
  | tooLarge => "cannot fit 'int' into an index-sized integer"

end SizeFault

/-- The number of characters covered, where it is a size. -/
def size (s : Span) : Except SizeFault Nat :=
  if s.width < 0 then .error .negative
  else if maxSize < s.width then .error .tooLarge
  else .ok s.width.toNat

/-- `b` lies within `a`, judged by offsets alone. -/
def contains (a b : Span) : Bool :=
  decide (a.start.offset ≤ b.start.offset) && decide (b.stop.offset ≤ a.stop.offset)

end Span

/-- How far a reader has come in a text: lines and columns from one, the offset from zero. The
offset at which the line starts is kept along with them. -/
structure Position where
  line : Nat
  column : Nat
  offset : Nat
  lineStart : Nat
  deriving DecidableEq, Inhabited

namespace Position

/-- Before the first character. -/
def start : Position := ⟨1, 1, 0, 0⟩

/-- The place behind one character: only a line feed opens a new line. -/
def next (p : Position) (c : Char) : Position :=
  if c = '\n' then ⟨p.line + 1, 1, p.offset + 1, p.offset + 1⟩
  else ⟨p.line, p.column + 1, p.offset + 1, p.lineStart⟩

/-- The place behind a run of characters. -/
def after (p : Position) (text : List Char) : Position := text.foldl next p

/-- The place in a named file. -/
def inFile (p : Position) (file : String) : Location := ⟨file, p.line, p.column, p.offset⟩

@[simp] theorem after_nil (p : Position) : p.after [] = p := rfl

@[simp] theorem after_cons (p : Position) (c : Char) (r : List Char) :
    p.after (c :: r) = (p.next c).after r := rfl

theorem after_append (p : Position) (a b : List Char) : p.after (a ++ b) = (p.after a).after b :=
  List.foldl_append

theorem offset_next (p : Position) (c : Char) : (p.next c).offset = p.offset + 1 := by
  unfold next; split <;> rfl

theorem offset_after (p : Position) (text : List Char) :
    (p.after text).offset = p.offset + text.length := by
  induction text generalizing p with
  | nil => rfl
  | cons c r ih => rw [after_cons, ih, offset_next, List.length_cons]; omega

end Position

end ArcLang
