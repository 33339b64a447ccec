import ArcLang.Parser.Iterate
import ArcLang.Tree

/-!
# Expressions

An expression, the right operand of a binary operator and the operand of a unary operator each
take one level of nesting. The rules of one level refer to those of the level inside, by their
`Form`; `Form.within` builds the levels up from the innermost, beyond which nothing is taken.

Binary operators are folded into their left operand as long as they bind tightly enough; the right
operand takes only operators that bind more tightly, so operators of one level group to the left.
-/

namespace ArcLang.Parser

/-- The text by which diagnostics ask for a symbol. -/
def quotedSymbol (s : Symbol) : String := s!"'{s.spelling}'"

/-- Elements with commas between them, up to and with the closing symbol. A comma may stand before
that symbol. -/
def delimitedStep (closer : Symbol) (element : Parser α) (elements : Array α) :
    Parser (ForInStep (Array α)) := do
  if ← check (.symbol closer) then return .done elements
  let e ← element
  if ← accept (.symbol .comma) then return .yield (elements.push e)
  return .done (elements.push e)

/-- The elements of a list that `opener` has begun. -/
def delimited (opener : Token) (closer : Symbol) (element : Parser α) : Parser (List α) := do
  let elements ← iterate (delimitedStep closer element) #[]
  let _ ← expectClosing (.symbol closer) (quotedSymbol closer) opener
  return elements.toList

/-- A literal's text without its quotes. -/
def unquoted (lexeme : String) : String := String.ofList (lexeme.toList.drop 1).dropLast

/-- A literal, a name, or an expression or a list of expressions between delimiters. -/
def primary (expression : Parser Expr) : Parser Expr := do
  let t ← peek
  match t.kind with
  | .number => return .number (← advance).span t.lexeme (.of t.lexeme)
  | .keyword (.boolean value) => return .boolean (← advance).span value
  | .char => return .char (← advance).span (unquoted t.lexeme)
  | .string => return .string (← advance).span (unquoted t.lexeme)
  | .identifier => return .name (← advance).span t.lexeme
  | .symbol .leftParen =>
    let opener ← advance
    let inner ← expression
    let _ ← expectClosing (.symbol .rightParen) (quotedSymbol .rightParen) opener
    return .paren (← spanFrom opener.place) inner
  | .symbol .leftBracket =>
    let opener ← advance
    let elements ← delimited opener .rightBracket expression
    return .array (← spanFrom opener.place) elements
  | _ => failAt t (.unexpectedToken t.describe (some "expression"))

/-- One member access, index or call behind an expression. -/
def trailingStep (expression : Parser Expr) (e : Expr) : Parser (ForInStep Expr) := do
  let t ← peek
  match t.kind with
  | .symbol .dot =>
    let _ ← advance
    let name ← expect .identifier "member name after '.'"
    return .yield (.member (← spanFrom e.span.start) e name.lexeme)
  | .symbol .leftBracket =>
    let opener ← advance
    let index ← expression
    let _ ← expectClosing (.symbol .rightBracket) (quotedSymbol .rightBracket) opener
    return .yield (.index (← spanFrom e.span.start) e index)
  | .symbol .leftParen =>
    let opener ← advance
    let arguments ← delimited opener .rightParen expression
    return .yield (.call (← spanFrom e.span.start) e arguments)
  | _ => return .done e

/-- A primary expression and whatever trails it. -/
def trailed (expression : Parser Expr) : Parser Expr := do
  iterate (trailingStep expression) (← primary expression)

/-- The rules that a level of nesting offers to the level around it. -/
inductive Form
  /-- An expression, with an assignment at its top if there is one. -/
  | whole
  /-- Operands of binary operators that bind at least so tightly. -/
  | binary (least : Nat)
  /-- An operand with its unary operators. -/
  | unary

namespace Form

variable (inner : Form → Parser Expr)

/-- An expression is an operand one level further in, or an assignment of an expression there to
one that can be assigned to. The target is looked at before the operator is consumed. -/
def assignment : Parser Expr := do
  let start ← peek
  let target ← inner (.binary Precedence.logicalOr.rank)
  match (← peek).kind.assignOp? with
  | none => return target
  | some op =>
    if target.isAddressable then
      let _ ← advance
      let value ← inner .whole
      return .assign (target.span.upTo value.span) target op value
    else failAt start .invalidTarget

/-- Unary operators in front of an operand; each operand is one level further in. -/
def operand : Parser Expr := do
  let t ← peek
  match t.kind.unaryOp? with
  | none => trailed (assignment inner)
  | some op =>
    let _ ← advance
    let operand ← inner .unary
    return .unary (← spanFrom t.place) op operand

/-- One binary operator that binds at least so tightly, and its right operand. -/
def binaryStep (least : Nat) (left : Expr) : Parser (ForInStep Expr) := do
  match (← peek).kind.binaryOp? with
  | none => return .done left
  | some op =>
    if op.rank < least then return .done left
    let _ ← advance
    let right ← inner (.binary (op.rank + 1))
    return .yield (.binary (left.span.upTo right.span) op left right)

/-- Operands joined by binary operators that bind at least so tightly. -/
def chain (least : Nat) : Parser Expr := do
  iterate (binaryStep inner least) (← operand inner)

/-- The rules of the level around `inner`. -/
def around : Form → Parser Expr
  | whole => assignment inner
  | binary least => chain inner least
  | unary => operand inner

/-- The rules where so many levels of nesting are left. -/
def within : Nat → Form → Parser Expr
  | 0, form => around (fun _ => tooDeep) form
  | room + 1, form => around (within room) form

end Form

/-- An expression that may be nested so deeply. -/
def expression (room : Nat) : Parser Expr := Form.within room .whole

end ArcLang.Parser
