import ArcLang.Source
import ArcLang.Numeral

/-!
# Diagnostics

A diagnostic has a cause, a place and the line to show. All wording is in `Cause.message` and
`Cause.hint`; `Diagnostic.text` lays it out, with a caret under the place.
-/

namespace ArcLang

/-- What is wrong. The first four stand for faults that a caller words itself. -/
inductive Cause
  | general (message : String) (hint : Option String)
  | lexical (message : String) (hint : Option String)
  | syntactic (message : String) (hint : Option String)
  | typeName (message : String) (hint : Option String)
  /-- A char or string literal without its closing quote. -/
  | unterminatedLiteral (quote : String)
  /-- A character that starts no token, or that the named literal may not hold. -/
  | invalidCharacter (char : Char) (literal : Option String)
  | emptyCharLiteral
  /-- A token that no rule takes here, with what would have fitted. -/
  | unexpectedToken (found : String) (expected : Option String)
  | missingToken (expected : String) (hint : Option String)
  | invalidTarget
  | notTypeName (found : String)
  | negativeLength
  | nonLiteralLength (found : String)
  /-- A number whose digits do not belong to its radix, as an array length. -/
  | invalidLength (lexeme : String) (radix : Radix)
  | tooDeep (limit : Int)
  | breakOutsideLoop

/-- Broad groups of diagnostics. -/
inductive Category
  | lexical
  | syntactic
  | typeName
  | recursionLimit
  | semantic
  deriving DecidableEq

namespace Category

/-- The name of a category, as it is shown. -/
def name : Category → String
  | lexical => "lexical"
  | syntactic => "syntax"
  | typeName => "type-name"
  | recursionLimit => "recursion-limit"
  | semantic => "semantic"

end Category

namespace Cause

/-- The category of a cause. -/
def category : Cause → Category
  | .lexical .. | .unterminatedLiteral _ | .invalidCharacter .. | .emptyCharLiteral => .lexical
  | .general .. | .syntactic .. | .unexpectedToken .. | .missingToken .. | .invalidTarget =>
    .syntactic
  | .typeName .. | .notTypeName _ | .negativeLength | .nonLiteralLength _ | .invalidLength .. =>
    .typeName
  | .tooDeep _ => .recursionLimit
  | .breakOutsideLoop => .semantic

/-- A code point in upper-case hexadecimal, with at least two digits. -/
def hexCode (c : Char) : String :=
  let digits := (Nat.toDigits 16 c.toNat).map Char.toUpper
  String.ofList (if digits.length < 2 then '0' :: digits else digits)

/-- An optional text that is present and not empty. -/
def given (text : Option String) : Option String := text.filter (!·.isEmpty)

/-- The one-line account of a cause. -/
def message : Cause → String
  | .general text _ | .lexical text _ | .syntactic text _ | .typeName text _ => text
  | .unterminatedLiteral quote =>
    let what := if quote = "\"" then "string" else "character"
    s!"unterminated {what} literal"
  | .invalidCharacter char literal =>
    let place := (given literal).elim "" (" in " ++ ·)
    s!"invalid character '{char}' (0x{hexCode char}){place}"
  | .emptyCharLiteral => "empty character literal"
  | .unexpectedToken found _ => s!"unexpected {found}"
  | .missingToken expected _ => s!"expected {expected}"
  | .invalidTarget => "expression is not assignable"
  | .notTypeName found => s!"expected type name, found {found}"
  | .negativeLength => "array length must not be negative"
  | .nonLiteralLength found => s!"array length must be an integer literal, found {found}"
  | .invalidLength lexeme _ => s!"invalid array length '{lexeme}'"
  | .tooDeep limit => s!"nesting exceeds the maximum depth of {limit}"
  | .breakOutsideLoop => "'break' statement not within a loop"

/-- Advice on a cause, where there is any. -/
def hint : Cause → Option String
  | .general _ hint | .lexical _ hint | .syntactic _ hint | .typeName _ hint => hint
  | .missingToken _ hint => hint
  | .unterminatedLiteral quote => some s!"add closing {quote} to complete the literal"
  | .invalidCharacter _ literal =>
    (given literal).map fun _ => "char and string literals may only contain letters"
  | .emptyCharLiteral => some "character literals need at least one letter"
  | .unexpectedToken _ expected => (given expected).map fun e => s!"expected {e}"
  | .invalidTarget => some "assign to a variable, a member access or an index access"
  | .notTypeName _ =>
    some "use bool, float, i8..i64, u8..u64, a struct name or [type, length]"
  | .invalidLength lexeme radix => some s!"'{lexeme}' is not a valid {radix.text} literal"
  | .tooDeep _ => some "split the construct into smaller pieces"
  | .negativeLength | .nonLiteralLength _ | .breakOutsideLoop => none

end Cause

/-- A cause at a place, with the line of the source to show for it. -/
structure Diagnostic where
  cause : Cause
  place : Option Location := none
  line : Option String := none

namespace Diagnostic

/-- A diagnostic at a place of a source; it shows the line that the place names. -/
def ofPlace (source : Source) (place : Location) (cause : Cause) : Diagnostic :=
  ⟨cause, some place, source.line? place.line⟩

/-- What is wrong. -/
def message (d : Diagnostic) : String := d.cause.message

/-- What might be done about it. -/
def hint (d : Diagnostic) : Option String := d.cause.hint

/-- The group that the diagnostic belongs to. -/
def category (d : Diagnostic) : Category := d.cause.category

/-- The place and the message. -/
def headline (d : Diagnostic) : String :=
  match d.place with
  | some l => s!"{l.text}: error: {d.message}"
  | none => s!"error: {d.message}"

/-- The line and a caret below the column, both behind four blanks. A column that is not positive
has no caret. -/
def excerpt (d : Diagnostic) : List String :=
  match d.place, d.line with
  | some l, some line =>
    let caret := String.ofList (List.replicate (4 + l.column - 1).toNat ' ' ++ ['^'])
    ("    " ++ line) :: if 0 < l.column then [caret] else []
  | _, _ => []

/-- Why an excerpt cannot be laid out: its caret stands too far to the right. -/
inductive LayoutFault
  /-- The blanks before the caret are more than `maxSize`. -/
  | tooLarge
  /-- There is no room for so many blanks. -/
  | noRoom

namespace LayoutFault

/-- The interpreter's own words. -/
def message : LayoutFault → String
  | tooLarge => "cannot fit 'int' into an index-sized integer"
  | noRoom => ""

/-- The most blanks that there is room for. -/
def widest : Int := 68719476736

end LayoutFault

/-- The fault in the layout of a diagnostic, if there is one. Places within a text have none. -/
def layoutFault? (d : Diagnostic) : Option LayoutFault :=
  match d.place, d.line with
  | some l, some _ =>
    let blanks := 4 + l.column - 1
    if l.column ≤ 0 then none
    else if maxSize < blanks then some .tooLarge
    else if LayoutFault.widest < blanks then some .noRoom
    else none
  | _, _ => none

/-- The diagnostic as shown: headline, excerpt and hint. -/
def text (d : Diagnostic) : String :=
  let advice := (Cause.given d.hint).toList.map ("hint: " ++ ·)
  "\n".intercalate (d.headline :: d.excerpt ++ advice)

end Diagnostic

end ArcLang
