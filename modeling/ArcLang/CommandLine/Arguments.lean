import ArcLang.Numeral
import ArcLang.Options
import ArcLang.Path
import ArcLang.Text.DecimalDigit
import ArcLang.Text.WhiteSpace

/-!
# Arguments of the command line

Words after the command's name are read from left to right. A word that starts with a hyphen is an
option, wherever it stands before a lone `--`; the last of several values of one option counts. A
request for the version or for help is granted before values and files are looked at.
-/

namespace ArcLang.CommandLine

/-- A request that no file is needed for. -/
inductive Notice
  | version
  | help
  deriving DecidableEq

/-- What the words say, values not yet looked at. -/
structure Words where
  ast : Bool := false
  tokens : Bool := false
  check : Bool := false
  verbose : Bool := false
  /-- The first request of its kind. -/
  notice : Option Notice := none
  depth : Option String := none
  errors : Option String := none
  /-- Words that are no options, in their order. -/
  operands : List String := []

/-- What is wrong with a command line. -/
inductive Usage
  | noSuchOption (name : String)
  | missingValue (name : String)
  | needlessValue (name : String)
  | invalidValue (name value : String)
  | missingFile
  | extraOperand (word : String)
  | noSuchFile (path : String)
  | folderGiven (path : String)

namespace Usage

/-- What is said of a command line that cannot be used. -/
def message : Usage → String
  | noSuchOption name => s!"No such option: {name}"
  | missingValue name => s!"Option '{name}' requires an argument."
  | needlessValue name => s!"Option '{name}' does not take a value."
  | invalidValue name value => s!"Invalid value for '{name}': {value}"
  | missingFile => "Missing argument 'INPUT_FILE'."
  | extraOperand word => s!"Got unexpected extra argument ({word})"
  | noSuchFile path => s!"Invalid value for 'INPUT_FILE': File '{path}' does not exist."
  | folderGiven path => s!"Invalid value for 'INPUT_FILE': File '{path}' is a directory."

end Usage

/-- Sets the switch with a long name. -/
def Words.switch? (w : Words) : String → Option Words
  | "--ast" => some { w with ast := true }
  | "--tokens" => some { w with tokens := true }
  | "--check" => some { w with check := true }
  | "--verbose" => some { w with verbose := true }
  | "--version" => some { w with notice := w.notice.or (some .version) }
  | "--help" => some { w with notice := w.notice.or (some .help) }
  | _ => none

/-- Stores the value of the option with a name. -/
def Words.store? (w : Words) (name value : String) : Option Words :=
  match name with
  | "--max-depth" => some { w with depth := some value }
  | "--max-errors" => some { w with errors := some value }
  | _ => none

/-- A word cut at its first equals sign, if it has one. -/
def cutAtEquals (word : String) : String × Option String :=
  let name := word.toList.takeWhile (· != '=')
  match word.toList.drop name.length with
  | [] => (word, none)
  | _ :: value => (String.ofList name, some (String.ofList value))

/-- Reads letters behind a single hyphen; each is a switch. -/
def Words.letters (w : Words) : List Char → Except Usage Words
  | [] => .ok w
  | 'v' :: rest => Words.letters { w with verbose := true } rest
  | c :: _ => .error (.noSuchOption (String.ofList ['-', c]))

/-- Reads words from left to right. -/
def Words.read (w : Words) : List String → Except Usage Words
  | [] => .ok w
  | word :: rest =>
    if word = "--" then .ok { w with operands := w.operands ++ rest }
    else if word.startsWith "--" then
      let (name, value?) := cutAtEquals word
      match w.switch? name, value? with
      | some w, none => w.read rest
      | some _, some _ => .error (.needlessValue name)
      | none, some value =>
        match w.store? name value with
        | some w => w.read rest
        | none => .error (.noSuchOption name)
      | none, none =>
        match rest with
        | [] =>
          let known := (w.store? name "").isSome
          .error (if known then .missingValue name else .noSuchOption name)
        | value :: rest =>
          match w.store? name value with
          | some w => w.read rest
          | none => .error (.noSuchOption name)
    else
      match word.toList with
      | '-' :: c :: letters => do
        let w ← w.letters (c :: letters)
        w.read rest
      | _ => Words.read { w with operands := w.operands ++ [word] } rest

/-- The values of digits with single underscores between them, at least one. -/
def digits? : List Char → Option (List Nat)
  | [] => none
  | [c] => (DecimalDigit.decimalDigit? c).map fun d => [d]
  | c :: '_' :: rest | c :: rest => do
    let d ← DecimalDigit.decimalDigit? c
    let more ← digits? rest
    return d :: more

/-- The number that digits write, unless there are more than are read. -/
def natural? (text : List Char) : Option Nat := do
  let digits ← digits? text
  if digits.length ≤ Numeral.maxDigits then some (Radix.decimal.value digits) else none

/-- A whole number in decimal, with white space around it and a sign in front if it has one. -/
def integer? (text : String) : Option Int :=
  let isSpace := WhiteSpace.isWhiteSpace
  let trimmed := ((text.toList.dropWhile isSpace).reverse.dropWhile isSpace).reverse
  match trimmed with
  | '-' :: digits => (natural? digits).map fun n => -(n : Int)
  | '+' :: digits => (natural? digits).map fun n => (n : Int)
  | digits => (natural? digits).map fun n => (n : Int)

/-- What to do with a file. -/
structure Request where
  path : String
  ast : Bool
  tokens : Bool
  check : Bool
  verbose : Bool
  options : Options

/-- What a command line asks for. -/
inductive Command
  | notice (n : Notice)
  | run (request : Request)
  /-- A file by a path that no file can be asked for by. -/
  | unnameable (path : String)

/-- The value of an option, or what counts where it is not given. -/
def value (name : String) (given : Option String) (otherwise : Int) : Except Usage Int :=
  match given with
  | none => .ok otherwise
  | some text => (integer? text).elim (.error (.invalidValue name text)) .ok

/-- Reads the words of a command line. -/
def Command.ofWords (words : List String) : Except Usage Command := do
  let w ← Words.read {} words
  if let some n := w.notice then return .notice n
  let depth ← value "--max-depth" w.depth ({} : Options).maxDepth
  let errors ← value "--max-errors" w.errors ({} : Options).maxErrors
  let options ← match Options.ofInts? depth errors with
    | .ok options => pure options
    | .error (.errorsTooFew n) => throw (.invalidValue "--max-errors" (toString n))
    | .error (.depthTooSmall n) | .error (.depthTooLarge n) =>
      throw (.invalidValue "--max-depth" (toString n))
  match w.operands with
  | [] => throw .missingFile
  | path :: more =>
    if !Path.isNameable path then return .unnameable path
    if let extra :: _ := more then throw (.extraOperand extra)
    let { ast, tokens, check, verbose, .. } := w
    return .run { path, ast, tokens, check, verbose, options }

end ArcLang.CommandLine
