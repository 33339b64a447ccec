/-!
# Numerals

A number in a script keeps its spelling and a radix that its first two characters decide. Only the
length of an array is turned into a value (`Numeral.resolve`).

* `Radix.value_append_singleton`: a digit behind a numeral multiplies the value by the base.
* `Numeral.maxDigits`: longer decimal numerals are neither read as lengths nor written.
-/

namespace ArcLang

/-- The radix that a number's first two characters announce. -/
inductive Radix
  | decimal
  | hexadecimal
  | binary
  deriving DecidableEq, Inhabited

namespace Radix

/-- The number that the digits are counted in. -/
def base : Radix → Nat
  | decimal => 10
  | hexadecimal => 16
  | binary => 2

/-- The adjective in diagnostics. -/
def text : Radix → String
  | decimal => "decimal"
  | hexadecimal => "hexadecimal"
  | binary => "binary"

/-- Only `0x` and `0b`, in lower case, announce a radix; all else is decimal. -/
def ofChars : List Char → Radix
  | '0' :: 'x' :: _ => hexadecimal
  | '0' :: 'b' :: _ => binary
  | _ => decimal

/-- The radix announced by a spelling. -/
def of (spelling : String) : Radix := ofChars spelling.toList

/-- A spelling without the two characters that announce the radix. -/
def digits (r : Radix) (spelling : List Char) : List Char :=
  match r with
  | decimal => spelling
  | _ => spelling.drop 2

/-- The value of an ASCII digit or letter, of either case, below the base. -/
def digit? (r : Radix) (c : Char) : Option Nat :=
  let value? :=
    if '0' ≤ c ∧ c ≤ '9' then some (c.toNat - '0'.toNat)
    else if 'a' ≤ c ∧ c ≤ 'f' then some (c.toNat - 'a'.toNat + 10)
    else if 'A' ≤ c ∧ c ≤ 'F' then some (c.toNat - 'A'.toNat + 10)
    else none
  value?.filter (· < r.base)

/-- The positional value of digits, the first one weighing most. -/
def value (r : Radix) (digits : List Nat) : Nat := digits.foldl (fun n d => n * r.base + d) 0

theorem value_append_singleton (r : Radix) (ds : List Nat) (d : Nat) :
    r.value (ds ++ [d]) = r.value ds * r.base + d := by
  simp [value, List.foldl_append]

end Radix

namespace Numeral

/-- The most decimal digits that a length may have to be read or written. -/
def maxDigits : Nat := 4300

/-- What the spelling of a length stands for. -/
inductive Resolution
  /-- Digits of the announced radix, at least one. -/
  | length (n : Nat)
  /-- Not digits of the announced radix. -/
  | invalid
  /-- Decimal digits, but more than `maxDigits`, leading zeros included. -/
  | tooManyDigits (count : Nat)
  deriving DecidableEq

/-- Resolves the spelling of an array length. -/
def resolve (spelling : String) : Resolution :=
  let radix := Radix.of spelling
  let digits := radix.digits spelling.toList
  match digits.mapM radix.digit? with
  | none => .invalid
  | some [] => .invalid
  | some values =>
    if radix = .decimal ∧ maxDigits < values.length then .tooManyDigits values.length
    else .length (radix.value values)

/-- The length can be written in decimal. -/
def isWritable (n : Nat) : Bool := n < Nat.pow 10 maxDigits

/-- What is said of a length with too many digits: how many there were, where that is known. -/
def limitMessage (count : Option Nat) : String :=
  let found := count.elim "" fun n => s!": value has {n} digits"
  s!"Exceeds the limit ({maxDigits} digits) for integer string conversion{found}; " ++
    "use sys.set_int_max_str_digits() to increase the limit"

end Numeral

end ArcLang
