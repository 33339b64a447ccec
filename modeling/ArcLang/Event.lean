import ArcLang.Token
import ArcLang.Diagnostic

/-!
# Events

What happens while a text is read, for developers who want to follow it. An event is one line.
-/

namespace ArcLang

/-- What happens while a text is read. -/
inductive Event
  /-- Text was skipped; an error token stands for it. -/
  | resynchronized (skipped : Token)
  /-- A fault was not reported, because it only follows from text that was skipped. -/
  | suppressed (why : Diagnostic)
  /-- A fault was met, and reading went on behind it. -/
  | recovering (why : Diagnostic)
  /-- Reading ended before the end of the text. -/
  | stopped (why : Diagnostic)
  | parsedFunction (name : String) (parameters : Nat)
  | parsedText (file : String) (items : Nat) (diagnostics : Nat)

namespace Event

/-- The place of a diagnostic, if it has one. -/
def placeText (d : Diagnostic) : String := d.place.elim "" Location.text

/-- The line that tells of an event. -/
def text : Event → String
  | resynchronized t => s!"Lexer resynchronized after {Quoted.ofText t.lexeme} at {t.place.text}"
  | suppressed d => s!"Suppressed follow-on error at {placeText d}: {d.message}"
  | recovering d => s!"Recovering from syntax error at {placeText d}: {d.message}"
  | stopped d => s!"Parse stopped: {d.message} at {placeText d}"
  | parsedFunction name n => s!"Parsed function '{name}' with {n} parameter(s)"
  | parsedText file n k => s!"Parsed {file}: {n} item(s), {k} diagnostic(s)"

end Event

end ArcLang
