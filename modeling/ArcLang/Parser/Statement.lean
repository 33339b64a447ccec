import ArcLang.Parser.Recovery
import ArcLang.Parser.TypeName
import ArcLang.Parser.Expression

/-!
# Statements and bodies

A body takes one level of nesting. Inside a body a broken statement is reported and skipped, and
the body goes on; a body that is not closed is itself broken.
-/

namespace ArcLang.Parser

/-- The rest of a statement that `if` has begun. -/
def branch (start : Token) (expression : Parser Expr) (body : Parser Block) : Parser Stmt := do
  let condition ← expression
  let consequent ← body
  if ← accept (.keyword .elseWord) then
    let t ← peek
    if t.kind = .keyword .ifWord then
      failAt t (.missingToken "'\x7b' after 'else'"
        (some "there is no 'else if'; nest the 'if' inside an 'else' body"))
    else
      let alternate ← body
      return .branch (← spanFrom start.place) condition consequent (some alternate)
  else return .branch (← spanFrom start.place) condition consequent none

/-- The rest of a statement that `while` has begun. -/
def loop (start : Token) (expression : Parser Expr) (body : Parser Block) : Parser Stmt := do
  let condition ← expression
  let inner ← body
  return .loop (← spanFrom start.place) condition inner

/-- The rest of a statement that `return` has begun. -/
def ret (start : Token) (expression : Parser Expr) : Parser Stmt := do
  let value ← if ← check (.symbol .semicolon) then pure none else some <$> expression
  let _ ← expect (.symbol .semicolon) "';' after return"
  return .ret (← spanFrom start.place) value

/-- The rest of a statement that `break` has begun. -/
def breakLoop (start : Token) : Parser Stmt := do
  let _ ← expect (.symbol .semicolon) "';' after break"
  return .breakLoop (← spanFrom start.place)

/-- A statement, given the rules for expressions and bodies. -/
def statement (expression : Parser Expr) (body : Parser Block) : Parser Stmt := do
  let t ← peek
  match t.kind with
  | .keyword .ifWord => branch (← advance) expression body
  | .keyword .whileWord => loop (← advance) expression body
  | .keyword .returnWord => ret (← advance) expression
  | .keyword .breakWord => breakLoop (← advance)
  | _ =>
    let e ← expression
    let _ ← expect (.symbol .semicolon) "';' after expression"
    return .expression (← spanFrom t.place) e

/-- One statement of a body, or none where it is broken. -/
def bodyStep (rule : Parser Stmt) (statements : Array Stmt) : Parser (ForInStep (Array Stmt)) := do
  if (← peek).kind = .symbol .rightBrace || (← atEnd) || (← isSated) then return .done statements
  match ← recover rule skipStatement (check (.symbol .rightBrace)) with
  | some s => return .yield (statements.push s)
  | none => return .yield statements

/-- The rest of a body, given the rule for statements. -/
def bodyRest (opener : Token) (rule : Parser Stmt) : Parser Block := do
  let statements ← iterate (bodyStep rule) #[]
  let _ ← expectClosing (.symbol .rightBrace) (quotedSymbol .rightBrace) opener
  return .mk (← spanFrom opener.place) statements.toList

/-- A body that may be nested so deeply. -/
def body : Nat → Parser Block
  | 0 => do
    let _ ← expect (.symbol .leftBrace) (quotedSymbol .leftBrace)
    tooDeep
  | room + 1 => do
    let opener ← expect (.symbol .leftBrace) (quotedSymbol .leftBrace)
    bodyRest opener (statement (expression room) (body room))

end ArcLang.Parser
