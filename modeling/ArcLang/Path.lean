/-!
# Paths and folders

A path leads from a folder, step by step, to a file or a folder. A single dot and an empty step stay
where they are, two dots go up. `Folder.find` follows a path among known files.

* `Folder.find_eq_missing_of_not_isNameable`: a path with the null character leads nowhere.
-/

namespace ArcLang

namespace Path

/-- A path without steps that stay where they are. -/
def normal (path : String) : String :=
  let steps := (path.splitOn "/").filter fun step => step != "" && step != "."
  let slashes := (path.toList.takeWhile (· = '/')).length
  let root := if slashes = 0 then "" else if slashes = 2 then "//" else "/"
  if steps.isEmpty && root = "" then "." else root ++ "/".intercalate steps

/-- A path can be asked for: it holds no null character. -/
def isNameable (path : String) : Bool := !path.toList.contains '\x00'

/-- The most octets that one name may have. -/
def maxName : Nat := 255

/-- The most octets that a path may have. -/
def maxLength : Nat := 4095

end Path

/-- What a path leads to. -/
inductive Target
  | file (octets : List UInt8)
  | folder
  | missing
  /-- A name on the way, or the whole path, has too many octets. -/
  | tooLong

/-- The files in a folder and below it, each with the names that lead to it, and what is known of
everything else, with the names that lead there from the root. -/
structure Folder where
  files : List (List String × List UInt8)
  elsewhere : List (List String × Target) := []

namespace Folder

/-- How far a path has led. -/
inductive Place
  /-- To the folder itself, or below it by names. -/
  | inside (names : List String)
  /-- To a folder above the folder, of which nothing else is known. -/
  | outside
  /-- From the root by names. -/
  | rooted (names : List String)

namespace Place

/-- The folder above. -/
def above : Place → Place
  | inside (name :: names) => inside (name :: names).dropLast
  | rooted names => rooted names.dropLast
  | inside [] | outside => outside

end Place

/-- Some file lies below the names. -/
def leadsOn (f : Folder) (names : List String) : Bool :=
  f.files.any fun file => names.isPrefixOf file.1

/-- Follows steps from a place. Nothing lies behind a file, not even a step that stays. -/
def follow (f : Folder) : Place → List String → Target
  | _, [] => .folder
  | place, step :: rest =>
    if step = "" || step = "." then f.follow place rest
    else if step = ".." then f.follow place.above rest
    else if Path.maxName < step.utf8ByteSize then .tooLong
    else
      match place with
      | .outside => .missing
      | .rooted names =>
        let here := names ++ [step]
        match f.elsewhere.lookup here with
        | some .folder => f.follow (.rooted here) rest
        | some target => if rest.isEmpty then target else .missing
        | none => .missing
      | .inside names =>
        let here := names ++ [step]
        match f.files.lookup here with
        | some octets => if rest.isEmpty then .file octets else .missing
        | none => if f.leadsOn here then f.follow (.inside here) rest else .missing

/-- What a path leads to from the folder. -/
def find (f : Folder) (path : String) : Target :=
  if path.isEmpty || !Path.isNameable path then .missing
  else if Path.maxLength < path.utf8ByteSize then .tooLong
  else
    let steps := path.splitOn "/"
    f.follow (if steps.head? = some "" then .rooted [] else .inside []) steps

theorem find_eq_missing_of_not_isNameable (f : Folder) {path : String}
    (h : Path.isNameable path = false) : f.find path = .missing := by
  simp [find, h]

end Folder

end ArcLang
