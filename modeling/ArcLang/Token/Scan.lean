import ArcLang.Token.Lexeme

/-!
# Scanning a source

A source is scanned into a list that ends with one end token. Text that is no token gives a fault:
a diagnostic together with an error token that covers the skipped text. Reading that stops at the
first fault, and reading that records faults and goes on, are views of this one list.
-/

namespace ArcLang

/-- One step through a source: a token, or skipped text with its diagnostic. -/
inductive Scan
  | token (t : Token)
  | fault (why : Diagnostic) (t : Token)

namespace Scan

/-- The token, whether proper or an error token. -/
def shown : Scan → Token
  | token t => t
  | fault _ t => t

/-- The diagnostic of skipped text. -/
def fault? : Scan → Option Diagnostic
  | token _ => none
  | fault why _ => some why

/-- The scan of a piece of text that starts at `p`. A diagnostic shows the line that the reader
stands in when the fault comes to light. -/
def ofPiece (source : Source) (p : Position) (piece : Piece) : Scan :=
  let span : Span := ⟨p.inFile source.file, (p.after piece.text).inFile source.file⟩
  let lexeme := String.ofList piece.text
  match piece.outcome with
  | .ok kind => token ⟨kind, lexeme, span⟩
  | .error why =>
    let place := (p.after why.before).inFile source.file
    let line := source.currentLine (p.after why.read).lineStart
    fault ⟨why.cause, some place, some line⟩ ⟨.error, lexeme, span⟩

end Scan

/-- Scans a text that starts at `p` in the source. -/
def scanFrom (source : Source) (p : Position) (text : List Char) : List Scan :=
  let start := p.after (trivia false text).1
  match _h : (trivia false text).2 with
  | [] => [.token (.endAt (start.inFile source.file))]
  | c :: r =>
    let piece := Piece.front c r
    .ofPiece source start piece :: scanFrom source (start.after piece.text) piece.rest
termination_by text.length
decreasing_by
  have whole := congrArg List.length (trivia_append false text)
  have shorter := Piece.length_rest_le c r
  rw [_h] at whole
  simp only [List.length_append, List.length_cons] at whole
  omega

/-- Scans a whole text, which is that of the source. -/
def scan (source : Source) (text : String) : List Scan := scanFrom source .start text.toList

namespace Scan

/-- The tokens before the first fault, and that fault. -/
def untilFault : List Scan → List Token × Option Diagnostic
  | [] => ([], none)
  | fault why _ :: _ => ([], some why)
  | token t :: rest =>
    let (before, why) := untilFault rest
    (t :: before, why)

/-- Every token, error tokens included. -/
def tokens (scans : List Scan) : List Token := scans.map shown

/-- Every diagnostic, in the order of the text. -/
def faults (scans : List Scan) : List Diagnostic := scans.filterMap fault?

end Scan

end ArcLang
