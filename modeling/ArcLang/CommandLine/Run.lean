import ArcLang.CommandLine.Arguments
import ArcLang.LoopCheck
import ArcLang.Parsed
import ArcLang.Text.ControlSequence
import ArcLang.Tree.Listing

/-!
# Running the command

The command reads one file and says whether it parses. It answers with an exit status, a text for
standard output and one for standard error: status 0 for a clean file, 1 for faults in it, 2 for a
command line or file that cannot be used, 3 for everything else. Everything else includes a tree
that is too deep for the stack, where the tree is to be checked or printed.
-/

namespace ArcLang.CommandLine

/-- What a run leaves: its exit status and its two outputs. -/
structure Completion where
  exit : Nat
  out : String := ""
  err : String := ""

/-- Why a run does not succeed. -/
inductive Trouble
  /-- Faults in the file, already worded. -/
  | faults (report : String)
  /-- A failure of the library with a message of its own. -/
  | known (message : String)
  /-- Arguments or files that cannot be used. -/
  | unusable (message : String)
  | internal (message : String)

namespace Trouble

/-- The exit status of a run in trouble. -/
def exit : Trouble → Nat
  | faults _ | known _ => 1
  | unusable _ => 2
  | internal _ => 3

/-- What is said of the trouble. -/
def text : Trouble → String
  | faults report => report
  | known message | unusable message => s!"Error: {message}"
  | internal message => s!"Internal error: {message}"

/-- The end of a run in trouble. -/
def completion (t : Trouble) : Completion :=
  { exit := t.exit, err := ControlSequence.plain t.text ++ "\n" }

end Trouble

/-- Lines, each with a line feed behind it. -/
def lines (texts : List String) : String := String.join (texts.map (· ++ "\n"))

/-- Lines as they are printed, without control sequences. -/
def plainLines (texts : List String) : String := lines (texts.map ControlSequence.plain)

/-- The line of a token listing. -/
def tokenLine (t : Token) : String :=
  let place := s!"{t.place.line}:{t.place.column}"
  if t.isEnd then s!"{place}\t{t.kind.name}" else s!"{place}\t{t.kind.name}\t{t.lexeme}"

/-- The events of scanning. -/
def scanEvents (scans : List Scan) : List Event :=
  scans.filterMap fun
    | .token _ => none
    | .fault _ t => some (.resynchronized t)

/-- The trouble that an abandoned parse means. -/
def Trouble.ofAbort : Abort → Trouble
  | .raised why => faults why.text
  | why@(.hugeLength _) => internal why.message

/-- Lists the tokens of a text, and its faults behind them. -/
def listTokens (request : Request) (text : String) : List Event × Completion :=
  let file := Path.normal request.path
  let scans := scan (.ofText file text) text
  let out := plainLines ((Scan.tokens scans).map tokenLine)
  let errors := Collector.addAll {} (Scan.faults scans)
  let ending :=
    if errors.errors.isEmpty then { exit := 0, out }
    else { (Trouble.faults errors.report).completion with out }
  (scanEvents scans, ending)

/-- The trouble that a walk means which overflows. -/
def Trouble.ofOverflow (why : Overflow) : Trouble := internal why.message

/-- The checks after parsing, if they are asked for. -/
def checkFaults (request : Request) (frames : Nat) (text : String) (program : Program) :
    Except Trouble Unit :=
  if request.check then do
    let problems ← (program.checkBreaks text frames).mapError .ofOverflow
    let errors := Collector.ofList request.options.maxErrors problems
    if errors.errors.isEmpty then return else throw (.faults errors.report)
  else return

/-- What is printed of a clean program. -/
def summary (request : Request) (frames : Nat) (program : Program) : Except Trouble String :=
  let root := Node.program program
  if request.ast then
    if root.isWritable then do
      let listing ← ((Printer.print root).outcome frames {}).mapError .ofOverflow
      return plainLines [listing]
    else throw (.internal (Numeral.limitMessage none))
  else
    let counts :=
      if request.verbose then
        [s!"Functions: {program.functions.length}", s!"Structs: {program.structs.length}"]
      else []
    return plainLines (counts ++
      [s!"Parsed {Path.normal request.path}: {program.items.length} item(s)"])

/-- What is printed of a parsed text, where neither parsing nor the checks found a fault. -/
def answer (request : Request) (frames : Nat) (text : String) (parsed : Parsed) :
    Except Trouble String := do
  let program ← parsed.unwrap.mapError fun refused => .faults refused.report
  checkFaults request frames text program
  summary request frames program

/-- Parses a text and answers for it. -/
def parseText (request : Request) (frames : Nat) (text : String) : List Event × Completion :=
  match parse text (Path.normal request.path) request.options with
  | .error why => ([], (Trouble.ofAbort why).completion)
  | .ok parsed =>
    match answer request frames text parsed with
    | .ok out => (parsed.events, { exit := 0, out })
    | .error trouble => (parsed.events, trouble.completion)

/-- Runs a request on the octets of its file, with so many frames left for walks through the
tree. -/
def Request.run (request : Request) (frames : Nat) (octets : List UInt8) : Completion :=
  match Utf8.readText octets with
  | .error fault => (Trouble.internal fault.message).completion
  | .ok text =>
    let (events, ending) :=
      if request.tokens then listTokens request text else parseText request frames text
    let log := if request.verbose then lines (events.map fun e => "DEBUG: " ++ e.text) else ""
    { ending with err := log ++ ending.err }

/-- The answer to a request that no file is needed for. -/
def Notice.text : Notice → String
  | version => "arcparse, version 1.0.0"
  | help =>
    "\n".intercalate
      ["Usage: arcparse [OPTIONS] INPUT_FILE",
       "",
       "  Parse an arc source file.",
       "",
       "Options:",
       "  --ast                 Print the tree of a clean file",
       "  --tokens              Print the tokens and nothing else",
       "  --check               Also check that every break stands in a loop",
       "  --max-depth NUMBER    Bound on nesting, from 1 to 125 (64)",
       "  --max-errors NUMBER   Bound on diagnostics, from 1 (100)",
       "  -v, --verbose         Also print what happens on the way",
       "  --version             Print the version",
       "  --help                Print this text"]

/-- A refusal of the command line. -/
def Usage.completion (usage : Usage) : Completion :=
  { exit := 2, err := lines ["Usage: arcparse [OPTIONS] INPUT_FILE", s!"Error: {usage.message}"] }

/-- Why a command line has no completion. -/
inductive Breakdown
  /-- The path holds the null character, so nothing can be asked for by it. -/
  | nullInPath

namespace Breakdown

/-- The interpreter's own words. -/
def message : Breakdown → String
  | nullInPath => "embedded null byte"

end Breakdown

/-- Runs a command line, given the frames that are left for walks through a tree and a way to find
what a path leads to. -/
def run [Monad m] (frames : Nat) (find : String → m Target) (words : List String) :
    m (Except Breakdown Completion) := do
  match Command.ofWords words with
  | .error usage => return .ok usage.completion
  | .ok (.notice n) => return .ok { exit := 0, out := lines [n.text] }
  | .ok (.unnameable _) => return .error .nullInPath
  | .ok (.run request) =>
    match ← find request.path with
    | .file octets => return .ok (request.run frames octets)
    | .folder => return .ok (Usage.folderGiven request.path).completion
    | .missing | .tooLong => return .ok (Usage.noSuchFile request.path).completion

end ArcLang.CommandLine
