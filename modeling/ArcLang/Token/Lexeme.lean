import ArcLang.Token
import ArcLang.Diagnostic

/-!
# Lexemes

What stands at the front of a text: blanks and comments (`trivia`), or a piece that is either one
lexeme or text to be skipped with a diagnostic (`Piece.front`). Nothing is lost on the way.

* `trivia_append`: trivia and what follows are the text.
* `Piece.text_append_rest`: a piece and what follows are the text.
* `Piece.text_ne_nil`: a piece is never empty.
-/

namespace ArcLang

/-- The characters between tokens that mean nothing. -/
def isBlank (c : Char) : Bool := c = ' ' || c = '\t' || c = '\r' || c = '\n'

/-- Splits off the blanks and comments at the front. A comment runs up to the line feed. -/
def trivia (inComment : Bool) : List Char → List Char × List Char
  | [] => ([], [])
  | c :: r =>
    if inComment then
      let (skipped, rest) := trivia (c != '\n') r
      (c :: skipped, rest)
    else if isBlank c then
      let (skipped, rest) := trivia false r
      (c :: skipped, rest)
    else if c = '/' && r.head? = some '/' then
      let (skipped, rest) := trivia true r
      (c :: skipped, rest)
    else ([], c :: r)

theorem trivia_append (inComment : Bool) (text : List Char) :
    (trivia inComment text).1 ++ (trivia inComment text).2 = text := by
  induction text generalizing inComment with
  | nil => rfl
  | cons c r ih =>
    unfold trivia
    split
    · simp [ih]
    · split
      · simp [ih]
      · split
        · simp [ih]
        · rfl

/-- Why a text starts with no lexeme. -/
structure Refusal where
  /-- What stands between the start and the place of the fault. -/
  before : List Char
  /-- What was read when the fault came to light; the line of the fault is the one there. -/
  read : List Char
  cause : Cause

/-- How far the front of a text reaches behind its first character, and what it is: a lexeme of a
kind, or text to be skipped. -/
structure Reading where
  more : Nat
  outcome : Except Refusal Kind

namespace Reading

/-- A word may start with the character. -/
def isWordStart (c : Char) : Bool := c.isAlpha || c = '_'

/-- A word may go on with the character. -/
def isWordChar (c : Char) : Bool := c.isAlphanum || c = '_'

/-- A word is reserved or names something. -/
def wordKind (word : List Char) : Kind :=
  match Keyword.ofSpelling? (String.ofList word) with
  | some k => .keyword k
  | none => .identifier

/-- Letters, digits and underscores. -/
def word (c : Char) (r : List Char) : Reading :=
  let tail := r.takeWhile isWordChar
  ⟨tail.length, .ok (wordKind (c :: tail))⟩

/-- A digit and the letters and digits behind it; whether they fit a radix is not asked here. -/
def number (r : List Char) : Reading := ⟨(r.takeWhile Char.isAlphanum).length, .ok .number⟩

/-- A broken literal is skipped through its closing quote, or else to the end of the line. -/
def brokenLiteral (quote : Char) (r : List Char) (why : Refusal) : Reading :=
  let inside (c : Char) : Bool := c != '\n' && c != quote
  let n := (r.takeWhile inside).length
  ⟨if (r.dropWhile inside).head? = some quote then n + 1 else n, .error why⟩

/-- A literal between quotes holds letters only, and at least `least` of them. -/
def literal (quote : Char) (kind : Kind) (name : String) (least : Nat) (r : List Char) : Reading :=
  let letters := r.takeWhile Char.isAlpha
  let broken (before : List Char) (cause : Cause) :=
    brokenLiteral quote r ⟨before, quote :: letters, cause⟩
  match (r.dropWhile Char.isAlpha).head? with
  | none => broken [] (.unterminatedLiteral quote.toString)
  | some c =>
    if c = quote then
      if least ≤ letters.length then ⟨letters.length + 1, .ok kind⟩
      else broken [] .emptyCharLiteral
    else if c = '\n' then broken [] (.unterminatedLiteral quote.toString)
    else broken (quote :: letters) (.invalidCharacter c (some name))

/-- The longest operator or delimiter; where there is none, all up to a blank is skipped. -/
def symbol (c : Char) (r : List Char) : Reading :=
  match Symbol.front? (c :: r) with
  | some s => ⟨s.spelling.toList.length - 1, .ok (.symbol s)⟩
  | none =>
    ⟨(r.takeWhile fun d => !isBlank d).length, .error ⟨[], [], .invalidCharacter c none⟩⟩

/-- The reading of the text `c :: r`, which starts with no blank and no comment. -/
def front (c : Char) (r : List Char) : Reading :=
  if isWordStart c then word c r
  else if c.isDigit then number r
  else if c = '"' then literal c .string "string literal" 0 r
  else if c = '\x27' then literal c .char "character literal" 1 r
  else symbol c r

end Reading

/-- The front of a text, what follows, and what the front is. -/
structure Piece where
  text : List Char
  rest : List Char
  outcome : Except Refusal Kind

namespace Piece

/-- The piece at the front of the text `c :: r`. -/
def front (c : Char) (r : List Char) : Piece :=
  let reading := Reading.front c r
  ⟨c :: r.take reading.more, r.drop reading.more, reading.outcome⟩

/-- **Nothing of a text is lost at its front.** -/
theorem text_append_rest (c : Char) (r : List Char) :
    (front c r).text ++ (front c r).rest = c :: r := by
  simp [front, List.take_append_drop]

theorem text_ne_nil (c : Char) (r : List Char) : (front c r).text ≠ [] := List.cons_ne_nil _ _

theorem length_rest_le (c : Char) (r : List Char) : (front c r).rest.length ≤ r.length := by
  simp [front]

end Piece

end ArcLang
