import ArcLang.Parser.Iterate
import ArcLang.Tree

/-!
# Type names

A type is a reserved word, a name, or an element type with a length between brackets. The element
type is one level deeper; the length must be a number that has a value.
-/

namespace ArcLang.Parser

/-- The length of an array: a number whose digits fit its radix. -/
def arrayLength : Parser Nat := do
  let t ← peek
  match t.kind with
  | .symbol .minus => failAt t .negativeLength
  | .number =>
    match Numeral.resolve t.lexeme with
    | .length n =>
      let _ ← advance
      return n
    | .invalid => failAt t (.invalidLength t.lexeme (.of t.lexeme))
    | .tooManyDigits count => throw (.aborted (.hugeLength count))
  | _ => failAt t (.nonLiteralLength t.describe)

/-- An array type, given the rule for its element. -/
def arrayType (element : Parser TypeName) : Parser TypeName := do
  let opener ← advance
  let inner ← element
  let _ ← expect (.symbol .comma) "',' before array length"
  let length ← arrayLength
  let _ ← expectClosing (.symbol .rightBracket) "']'" opener
  return .array (← spanFrom opener.place) inner length

/-- A type, given the rule for the element of an array. -/
def typeNameWith (element : Parser TypeName) : Parser TypeName := do
  let t ← peek
  match t.kind with
  | .keyword .bool => return .bool (← advance).span
  | .keyword .float => return .float (← advance).span
  | .keyword (.int signed width) => return .int (← advance).span signed width
  | .identifier => return .named (← advance).span t.lexeme
  | .symbol .leftBracket => arrayType element
  | _ => failAt t (.notTypeName t.describe)

/-- A type that may hold so many array types in one another. -/
def typeName : Nat → Parser TypeName
  | 0 => typeNameWith tooDeep
  | room + 1 => typeNameWith (typeName room)

end ArcLang.Parser
