import ArcLang.Parser.Statement

/-!
# Programs

A program is a list of functions, structs and statements. A broken item is reported and left out;
where the bound on nesting is reached the parse ends with the items it has.
-/

namespace ArcLang.Parser

/-- A name, a colon and a type; `what` names the kind of name. -/
def binding (what : String) (room : Nat) : Parser Binding := do
  let name ← expect .identifier s!"{what} name"
  let _ ← expect (.symbol .colon) s!"':' after {what} name"
  let type ← typeName room
  return ⟨← spanFrom name.place, name.lexeme, type⟩

/-- The rest of a definition that `fun` has begun. -/
def function (start : Token) (room : Nat) : Parser Function := do
  let name ← expect .identifier "function name"
  let opener ← expect (.symbol .leftParen) (quotedSymbol .leftParen)
  let parameters ← delimited opener .rightParen (binding "parameter" room)
  let result ← if ← accept (.symbol .colon) then some <$> typeName room else pure none
  let body ← body room
  modify (·.note (.parsedFunction name.lexeme parameters.length))
  return ⟨← spanFrom start.place, name.lexeme, parameters, result, body⟩

/-- The rest of a definition that `struct` has begun. -/
def struct (start : Token) (room : Nat) : Parser Struct := do
  let name ← expect .identifier "struct name"
  let opener ← expect (.symbol .leftBrace) (quotedSymbol .leftBrace)
  let fields ← delimited opener .rightBrace (binding "field" room)
  return ⟨← spanFrom start.place, name.lexeme, fields⟩

/-- A function, a struct or a statement. -/
def item (room : Nat) : Parser Item := do
  match (← peek).kind with
  | .keyword .function => .function <$> function (← advance) room
  | .keyword .struct => .struct <$> struct (← advance) room
  | _ => .statement <$> statement (expression room) (body room)

/-- One item, or none where it is broken. Nothing follows an item that is nested too deeply. -/
def itemStep (room : Nat) (items : Array Item) : Parser (ForInStep (Array Item)) := do
  if (← atEnd) || (← isSated) then return .done items
  let next : Parser (ForInStep (Array Item)) := do
    match ← recover (item room) skipItem (pure false) with
    | some i => return .yield (items.push i)
    | none => return .yield items
  rescue next fun
    | .tooDeep why => do
      modify fun s => (s.record why).note (.stopped why)
      return .done items
    | failure => throw failure

/-- All items up to the end of the tokens. The program's span ends there, or behind the last token
consumed if the parse ended before. -/
def program : Parser Program := do
  let env ← read
  let items ← iterate (itemStep env.room) #[]
  let last ← peek
  let s ← get
  let stop := if last.isEnd then last.span.stop else s.previousEnd env.source.file
  return ⟨⟨.start env.source.file, stop⟩, items.toList⟩

end ArcLang.Parser

namespace ArcLang

/-- Parses a stream of scans into a program and the state at the end; or tells why the parse was
given up, and in which state. -/
def parseScans (setting : Setting) (errors : Collector) (faults : FaultSink) (scans : List Scan) :
    Except (Abort × State) (Program × State) :=
  match Parser.program setting { pending := scans, errors, faults } with
  | .ok program state => .ok (program, state)
  | .error failure state => .error (failure.abort, state)

end ArcLang
