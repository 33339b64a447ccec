import ArcLang.Text.Printable

/-!
# Quoted text

How a piece of source text is shown in messages for developers: between single quotes, or between
double quotes when it holds a single quote and no double one. A backslash, the quote itself and
every character that is not printable are written as escapes, so the shown text stays on one line.
-/

namespace ArcLang.Quoted

/-- The quote to put around a text. -/
def mark (text : List Char) : Char :=
  if text.contains '\x27' && !text.contains '"' then '"' else '\x27'

/-- `n` in lower-case hexadecimal, with at least so many digits. -/
def hexDigits (width n : Nat) : List Char :=
  let digits := Nat.toDigits 16 n
  List.replicate (width - digits.length) '0' ++ digits

/-- A character by its code: two digits, or four or eight where that is too few. -/
def code (c : Char) : List Char :=
  let n := c.toNat
  if n ≤ 0xFF then '\\' :: 'x' :: hexDigits 2 n
  else if n ≤ 0xFFFF then '\\' :: 'u' :: hexDigits 4 n
  else '\\' :: 'U' :: hexDigits 8 n

/-- One character between the given quotes. -/
def escape (quote c : Char) : List Char :=
  if c = '\\' || c = quote then ['\\', c]
  else if c = '\n' then ['\\', 'n']
  else if c = '\r' then ['\\', 'r']
  else if c = '\t' then ['\\', 't']
  else if Printable.isPrintable c then [c]
  else code c

/-- The quoted form of a text. -/
def ofText (text : String) : String :=
  let quote := mark text.toList
  String.ofList (quote :: text.toList.flatMap (escape quote) ++ [quote])

end ArcLang.Quoted
