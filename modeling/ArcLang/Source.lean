import ArcLang.Source.Location
import ArcLang.Text.Lines

/-!
# Sources

What diagnostics quote from: the name of a file and its text. The parser finds a line by its number
among the lines that the text was cut into before; the scanner cuts the line that it stands in out
of the text, from where the line starts.

* `Source.line?`: a line by its number.
* `Source.currentLine`: a line by its start.
-/

namespace ArcLang

/-- A file's name and, if they are known, the lines of its text and the text itself. -/
structure Source where
  file : String
  lines : List String := []
  text : List Char := []

namespace Source

/-- The source with the lines of `text`. -/
def ofText (file text : String) : Source :=
  ⟨file, (Lines.split text.toList).map String.ofList, text.toList⟩

/-- The text of a line, counted from one, where the lines hold it. -/
def line? (s : Source) (line : Int) : Option String :=
  if 0 < line then s.lines[line.toNat - 1]? else none

/-- The text from an offset up to the next line feed, or to the end. -/
def currentLine (s : Source) (start : Nat) : String :=
  String.ofList ((s.text.drop start).takeWhile (· != '\n'))

end Source

end ArcLang
