import ArcLang.Options
import ArcLang.Parser.Program
import ArcLang.Path
import ArcLang.Text.Utf8

/-!
# Parsed texts

Scanner and parser put together over one collector: a text becomes a program with its diagnostics,
ordered by place. A file is parsed like its text.
-/

namespace ArcLang

/-- The diagnostics of a text that was refused, and their report. -/
structure Refused where
  report : String
  errors : List Diagnostic

/-- What a text was parsed to. With diagnostics, the program holds the items that could be read, and
of a body with broken statements the statements that could. -/
structure Parsed where
  file : String
  program : Program
  diagnostics : List Diagnostic
  /-- What happened on the way, the earliest first. -/
  events : List Event

namespace Parsed

/-- The text has no faults. -/
def isClean (p : Parsed) : Bool := p.diagnostics.isEmpty

/-- All diagnostics as they are shown. -/
def report (p : Parsed) : String :=
  (Collector.ofList (max p.diagnostics.length 1) p.diagnostics).report

/-- The program, or the diagnostics if there are any. -/
def unwrap (p : Parsed) : Except Refused Program :=
  if p.isClean then .ok p.program else .error ⟨p.report, p.diagnostics⟩

end Parsed

/-- Parses the text of a file. -/
def parse (text file : String) (options : Options) : Except Abort Parsed := do
  let source := Source.ofText file text
  let setting : Setting := ⟨source, options.maxDepth⟩
  let (program, state) ←
    (parseScans setting { capacity := options.maxErrors } .shared (scan source text)).mapError
      Prod.fst
  let diagnostics := state.errors.sorted
  let events :=
    state.events.reverse ++ [.parsedText file program.items.length diagnostics.length]
  return { file, program, diagnostics, events }

/-- Why a file was not parsed. -/
inductive FileFault
  | notFound (path : String)
  /-- The path leads to a folder. -/
  | folder (path : String)
  | tooLong (path : String)
  | undecodable (fault : Utf8.Fault)
  | aborted (why : Abort)

namespace FileFault

/-- What is said of a file that was not parsed. -/
def message : FileFault → String
  | notFound path => s!"Source file not found: {path}"
  | folder path => s!"[Errno 21] Is a directory: {Quoted.ofText path}"
  | tooLong path => s!"[Errno 36] File name too long: {Quoted.ofText path}"
  | undecodable fault => fault.message
  | aborted why => why.message

end FileFault

/-- Parses a file, given a way to find what a path leads to. The path as it is given stands for the
file's name; a normal path is followed. -/
def parseFile [Monad m] (find : String → m Target) (path : String) (options : Options) :
    m (Except FileFault Parsed) := do
  match ← find (Path.normal path) with
  | .missing => return .error (.notFound path)
  | .folder => return .error (.folder (Path.normal path))
  | .tooLong => return .error (.tooLong (Path.normal path))
  | .file octets =>
    match Utf8.readText octets with
    | .error fault => return .error (.undecodable fault)
    | .ok text => return (parse text path options).mapError .aborted

end ArcLang
