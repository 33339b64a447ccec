import ArcLang.Token.Scan
import ArcLang.Diagnostic.Collector
import ArcLang.Event

/-!
# The state of a parse

A parser takes tokens from a stream one at a time. It looks at one token without consuming it, and
nothing further is taken from the stream before that token is consumed; so a fault of the stream
comes to light exactly when the parser reaches it. The end token is never consumed.

* `Parser.run_bind`: running two parsers in turn.
* `State.remaining`: a bound on the tokens that can still be consumed.
-/

namespace ArcLang

/-- Where the faults of a token stream go. -/
inductive FaultSink
  /-- To the parser's own collector. -/
  | shared
  /-- To a collector of their own. -/
  | separate (errors : Collector)
  /-- Nowhere: the first one ends the parse. -/
  | raise

/-- What a parse is given besides tokens: the source to quote from and the bound on nesting. -/
structure Setting where
  source : Source
  maxDepth : Int

namespace Setting

/-- The levels of nesting that the bound leaves at the start. -/
def room (s : Setting) : Nat := s.maxDepth.toNat

end Setting

/-- A reason to give up a parse without a result. -/
inductive Abort
  /-- A fault that nothing collects or handles. -/
  | raised (why : Diagnostic)
  /-- A length with more digits than are read. -/
  | hugeLength (digits : Nat)

namespace Abort

/-- The end of what was consumed was asked for before anything was. -/
def nothingConsumed : Abort := .raised { cause := .general "nothing has been consumed" none }

/-- What is said of a parse that was given up. -/
def message : Abort → String
  | raised why => why.text
  | hugeLength digits => Numeral.limitMessage (some digits)

end Abort

/-- Why a rule did not succeed. -/
inductive Failure
  /-- The tokens do not fit. An echo follows from text that was skipped, and is not reported. -/
  | syntactic (why : Diagnostic) (echo : Bool)
  /-- The bound on nesting is reached; the parse ends. -/
  | tooDeep (why : Diagnostic)
  | aborted (why : Abort)

namespace Failure

/-- What a failure that nothing has caught comes to. -/
def abort : Failure → Abort
  | aborted why => why
  | syntactic why _ | tooDeep why => .raised why

end Failure

/-- How far a parse has come. -/
structure State where
  /-- What the stream still holds. -/
  pending : List Scan
  /-- The token looked at and not consumed. -/
  ahead : Option Token := none
  /-- The token consumed last. -/
  previous : Option Token := none
  /-- The number of tokens consumed. -/
  consumed : Nat := 0
  errors : Collector
  faults : FaultSink
  /-- What has happened, the latest first. -/
  events : List Event := []

namespace State

/-- An upper bound on the tokens that can still be consumed. -/
def remaining (s : State) : Nat :=
  s.pending.length +
    match s.ahead with
    | some t => if t.isEnd then 0 else 1
    | none => 0

theorem remaining_le (s : State) : s.remaining ≤ s.pending.length + 1 := by
  unfold remaining
  split
  · split <;> omega
  · omega

/-- Notes an event. -/
def note (e : Event) (s : State) : State := { s with events := e :: s.events }

/-- Records a diagnostic in the parser's collector. -/
def record (d : Diagnostic) (s : State) : State := { s with errors := s.errors.add d }

/-- Where the last consumed token ends, or the start of the file. -/
def previousEnd (file : String) (s : State) : Location :=
  s.previous.elim (.start file) (·.span.stop)

end State

/-- A computation on the state of a parse that may fail. What it did before failing stays done. -/
abbrev Parser := ReaderT Setting (EStateM Failure State)

namespace Parser

@[simp] theorem run_pure (a : α) (env : Setting) (s : State) :
    (pure a : Parser α) env s = .ok a s := rfl

/-- **Two parsers in turn:** the second starts where the first succeeded. -/
theorem run_bind (p : Parser α) (f : α → Parser β) (env : Setting) (s : State) :
    (p >>= f) env s =
      match p env s with
      | .ok a s' => f a env s'
      | .error e s' => .error e s' := by
  cases h : p env s <;> simp [bind, ReaderT.bind, EStateM.bind, h]

theorem run_map (f : α → β) (p : Parser α) (env : Setting) (s : State) :
    (f <$> p) env s =
      match p env s with
      | .ok a s' => .ok (f a) s'
      | .error e s' => .error e s' := by
  cases h : p env s <;> simp [Functor.map, EStateM.map, h]

@[simp] theorem run_read (env : Setting) (s : State) :
    (read : Parser Setting) env s = .ok env s := rfl

@[simp] theorem run_get (env : Setting) (s : State) : (get : Parser State) env s = .ok s s := rfl

@[simp] theorem run_set (t : State) (env : Setting) (s : State) :
    (set t : Parser PUnit) env s = .ok ⟨⟩ t := rfl

@[simp] theorem run_modify (f : State → State) (env : Setting) (s : State) :
    (modify f : Parser PUnit) env s = .ok ⟨⟩ (f s) := rfl

@[simp] theorem run_throw (e : Failure) (env : Setting) (s : State) :
    (throw e : Parser α) env s = .error e s := rfl

/-- Runs a parser; where it fails, the failure is handled in the state that it left. -/
def rescue (p : Parser α) (handle : Failure → Parser α) : Parser α := fun env s =>
  match p env s with
  | .ok a s' => .ok a s'
  | .error e s' => handle e env s'

/-- Takes the next token from the stream, which counts as ended where nothing is left. A fault goes
where the state says; one that ends the parse also ends the stream. -/
def pull : Parser Token := do
  let s ← get
  match s.pending with
  | [] => return .endAt (s.previousEnd (← read).source.file)
  | .token t :: rest =>
    set { s with pending := rest }
    return t
  | .fault why t :: rest =>
    let s' := { s with pending := rest }.note (.resynchronized t)
    match s.faults with
    | .shared =>
      set (s'.record why)
      return t
    | .separate errors =>
      set { s' with faults := .separate (errors.add why) }
      return t
    | .raise =>
      set { s with pending := [] }
      throw (.aborted (.raised why))

/-- Looks at the current token. -/
def peek : Parser Token := do
  match (← get).ahead with
  | some t => return t
  | none =>
    let t ← pull
    modify fun s => { s with ahead := some t }
    return t

/-- Consumes the current token and gives it back. The end token stays. -/
def advance : Parser Token := do
  let t ← peek
  if t.isEnd then return t
  modify fun s => { s with ahead := none, previous := some t, consumed := s.consumed + 1 }
  return t

/-- The current token has the kind. -/
def check (kind : Kind) : Parser Bool := return (← peek).kind = kind

/-- The current token is the end token. -/
def atEnd : Parser Bool := return (← peek).isEnd

/-- Consumes the current token if it has the kind. -/
def accept (kind : Kind) : Parser Bool := do
  if ← check kind then
    let _ ← advance
    return true
  return false

/-- Fails at a token. The failure is an echo where the token stands for skipped text. -/
def failAt (t : Token) (cause : Cause) : Parser α := do
  throw (.syntactic (.ofPlace (← read).source t.place cause) t.isError)

/-- Fails because another level of nesting would exceed the bound. -/
def tooDeep : Parser α := do
  let t ← peek
  let env ← read
  throw (.tooDeep (.ofPlace env.source t.place (.tooDeep env.maxDepth)))

/-- Consumes a token of the kind, or fails with what was expected. -/
def expect (kind : Kind) (expected : String) : Parser Token := do
  if ← check kind then advance
  else
    let t ← peek
    failAt t (.missingToken expected (some s!"found {t.describe}"))

/-- Consumes a closing delimiter, or fails with a hint at the one that opens. -/
def expectClosing (kind : Kind) (expected : String) (opener : Token) : Parser Token := do
  if ← check kind then advance
  else
    let place := s!"{opener.place.line}:{opener.place.column}"
    failAt (← peek) (.missingToken expected (some s!"to match {opener.describe} at {place}"))

/-- The span from a location to the end of the last consumed token, which there must be. -/
def spanFrom (start : Location) : Parser Span := do
  match (← get).previous with
  | some t => return ⟨start, t.span.stop⟩
  | none => throw (.aborted .nothingConsumed)

end Parser

end ArcLang
