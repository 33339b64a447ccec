import ArcLang.CommandLine.Run

/-!
# The command

`arcparse` reads one file, prints what is asked of it, and ends with the exit status of the run.
-/

namespace ArcLang.CommandLine

/-- What a path leads to among the files that can be read. -/
def find (path : String) : IO Target := do
  try
    return .file (← IO.FS.readBinFile path).toList
  catch _ => return .missing

end ArcLang.CommandLine

open ArcLang ArcLang.CommandLine in
/-- Runs the command on its words, with the stack that the interpreter grants. -/
def main (words : List String) : IO UInt32 := do
  match ← run stackLimit find words with
  | .ok completion =>
    IO.print completion.out
    IO.eprint completion.err
    return completion.exit.toUInt32
  | .error breakdown =>
    IO.eprintln breakdown.message
    return 1
