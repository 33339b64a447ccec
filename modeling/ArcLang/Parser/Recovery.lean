import ArcLang.Parser.Iterate

/-!
# Recovery

Where tokens do not fit a rule, the fault is reported and tokens are skipped up to a place where a
statement or an item may start. Inside a body the skipping stops at the body's own brace; between
items it passes over whole pairs of braces, so a broken definition is left out as a whole.
-/

namespace ArcLang

/-- A word that starts a statement or a definition. -/
def Kind.startsStatement : Kind → Bool
  | .keyword .ifWord | .keyword .whileWord | .keyword .returnWord | .keyword .breakWord
  | .keyword .function | .keyword .struct => true
  | _ => false

namespace Parser

/-- Reports a fault, unless it only echoes one that has been reported. -/
def report (why : Diagnostic) (echo : Bool) : Parser Unit :=
  modify fun s =>
    if echo then s.note (.suppressed why) else (s.record why).note (.recovering why)

/-- Consumes a token if none has been consumed since there were `before`, unless `resting` says that
it is no harm to stay. -/
def moveOn (before : Nat) (resting : Parser Bool) : Parser Unit := do
  if (← get).consumed = before then
    unless ← resting do
      let _ ← advance

/-- Runs a rule. Where the tokens do not fit it, reports that, skips, and gives nothing; if neither
the rule nor the skipping consumed a token, one is consumed, unless `resting` allows to stay. -/
def recover (rule : Parser α) (skip : Parser Unit) (resting : Parser Bool) :
    Parser (Option α) := do
  let before := (← get).consumed
  rescue (some <$> rule) fun
    | .syntactic why echo => do
      report why echo
      skip
      moveOn before resting
      return none
    | failure => throw failure

/-- The collector takes no more diagnostics. -/
def isSated : Parser Bool := return (← get).errors.isFull

/-- One token on the way to the end of a statement. -/
def skipStatementStep (_ : Unit) : Parser (ForInStep Unit) := do
  let t ← peek
  if t.isEnd || t.kind = .symbol .rightBrace || t.kind.startsStatement then return .done ()
  let _ ← advance
  return if t.kind = .symbol .semicolon then .done () else .yield ()

/-- Skips to the end of a statement: behind a semicolon, or before a closing brace or a word that
starts a statement. -/
def skipStatement : Parser Unit := iterate skipStatementStep ()

/-- One token on the way to the end of an item, given the number of braces that the skipped text has
opened. -/
def skipItemStep (opened : Nat) : Parser (ForInStep Nat) := do
  let t ← peek
  if t.isEnd then return .done opened
  if opened = 0 && t.kind.startsStatement then return .done opened
  let _ ← advance
  if t.kind = .symbol .leftBrace then return .yield (opened + 1)
  if t.kind = .symbol .rightBrace then
    return if opened ≤ 1 then .done 0 else .yield (opened - 1)
  return if opened = 0 && t.kind = .symbol .semicolon then .done 0 else .yield opened

/-- Skips to the end of an item: behind a semicolon or a closing brace, or before a word that
starts one, pairs of braces counting as a whole. -/
def skipItem : Parser Unit := do
  let _ ← iterate skipItemStep 0

end Parser

end ArcLang
