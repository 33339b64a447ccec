import ArcLang.Source.Location
import ArcLang.Text.Quoted

/-!
# Tokens

The words and symbols of the language, each with its one spelling, and tokens as they stand in a
source.

* `Keyword.ofSpelling?_spelling`: every keyword is found by its spelling.
* `Symbol.mem_all`, `Symbol.all_pairwise`: the list of symbols is complete and runs from the longest
  spelling to the shortest, so its first member that fits a text is the longest that does.
-/

namespace ArcLang

/-- The number of bits of an integer type. -/
inductive Width
  | w8
  | w16
  | w32
  | w64
  deriving DecidableEq, Inhabited

namespace Width

/-- The number of bits. -/
def bits : Width → Nat
  | w8 => 8
  | w16 => 16
  | w32 => 32
  | w64 => 64

/-- The width with so many bits. -/
def ofBits? (n : Int) : Option Width := [w8, w16, w32, w64].find? fun w => (w.bits : Int) = n

end Width

/-- The spelling of an integer type. -/
def integerTypeName (signed : Bool) (width : Width) : String :=
  (if signed then "i" else "u") ++ toString width.bits

/-- The reserved words. -/
inductive Keyword
  | function
  | struct
  | ifWord
  | elseWord
  | whileWord
  | returnWord
  | breakWord
  | boolean (value : Bool)
  | bool
  | float
  | int (signed : Bool) (width : Width)
  deriving DecidableEq

namespace Keyword

/-- The word as it is written. -/
def spelling : Keyword → String
  | function => "fun"
  | struct => "struct"
  | ifWord => "if"
  | elseWord => "else"
  | whileWord => "while"
  | returnWord => "return"
  | breakWord => "break"
  | boolean true => "true"
  | boolean false => "false"
  | bool => "bool"
  | float => "float"
  | int signed width => integerTypeName signed width

/-- The integer types, by sign and then by width. -/
def integers : List Keyword :=
  [int true .w8, int true .w16, int true .w32, int true .w64,
   int false .w8, int false .w16, int false .w32, int false .w64]

/-- Every reserved word. -/
def all : List Keyword :=
  [function, struct, ifWord, elseWord, whileWord, returnWord, breakWord,
   boolean true, boolean false, bool, float] ++ integers

/-- The reserved word with a spelling. -/
def ofSpelling? (text : String) : Option Keyword := all.find? (·.spelling = text)

/-- **Reserved words are known by their spellings.** -/
theorem ofSpelling?_spelling (k : Keyword) : ofSpelling? k.spelling = some k := by
  rcases k with _ | _ | _ | _ | _ | _ | _ | (_ | _) | _ | _ | ⟨_ | _, _ | _ | _ | _⟩ <;> decide

end Keyword

/-- Operators and delimiters. -/
inductive Symbol
  | plus
  | minus
  | star
  | slash
  | percent
  | ampersand
  | pipe
  | caret
  | tilde
  | shiftLeft
  | shiftRight
  | and
  | or
  | not
  | equal
  | less
  | greater
  | lessEqual
  | greaterEqual
  | assign
  | plusAssign
  | minusAssign
  | starAssign
  | slashAssign
  | percentAssign
  | andAssign
  | orAssign
  | xorAssign
  | shiftLeftAssign
  | shiftRightAssign
  | leftParen
  | rightParen
  | leftBrace
  | rightBrace
  | leftBracket
  | rightBracket
  | comma
  | colon
  | semicolon
  | dot
  deriving DecidableEq

namespace Symbol

/-- The symbol as it is written. -/
def spelling : Symbol → String
  | plus => "+"
  | minus => "-"
  | star => "*"
  | slash => "/"
  | percent => "%"
  | ampersand => "&"
  | pipe => "|"
  | caret => "^"
  | tilde => "~"
  | shiftLeft => "<<"
  | shiftRight => ">>"
  | and => "&&"
  | or => "||"
  | not => "!"
  | equal => "=="
  | less => "<"
  | greater => ">"
  | lessEqual => "<="
  | greaterEqual => ">="
  | assign => ":="
  | plusAssign => "+="
  | minusAssign => "-="
  | starAssign => "*="
  | slashAssign => "/="
  | percentAssign => "%="
  | andAssign => "&="
  | orAssign => "|="
  | xorAssign => "^="
  | shiftLeftAssign => "<<="
  | shiftRightAssign => ">>="
  | leftParen => "("
  | rightParen => ")"
  | leftBrace => "\x7b"
  | rightBrace => "\x7d"
  | leftBracket => "["
  | rightBracket => "]"
  | comma => ","
  | colon => ":"
  | semicolon => ";"
  | dot => "."

/-- The name of a symbol in token listings. -/
def name : Symbol → String
  | plus => "PLUS"
  | minus => "MINUS"
  | star => "STAR"
  | slash => "SLASH"
  | percent => "PERCENT"
  | ampersand => "AMPERSAND"
  | pipe => "PIPE"
  | caret => "CARET"
  | tilde => "TILDE"
  | shiftLeft => "LSHIFT"
  | shiftRight => "RSHIFT"
  | and => "AND"
  | or => "OR"
  | not => "NOT"
  | equal => "EQ"
  | less => "LT"
  | greater => "GT"
  | lessEqual => "LE"
  | greaterEqual => "GE"
  | assign => "ASSIGN"
  | plusAssign => "PLUS_ASSIGN"
  | minusAssign => "MINUS_ASSIGN"
  | starAssign => "STAR_ASSIGN"
  | slashAssign => "SLASH_ASSIGN"
  | percentAssign => "PERCENT_ASSIGN"
  | andAssign => "AND_ASSIGN"
  | orAssign => "OR_ASSIGN"
  | xorAssign => "XOR_ASSIGN"
  | shiftLeftAssign => "LSHIFT_ASSIGN"
  | shiftRightAssign => "RSHIFT_ASSIGN"
  | leftParen => "LPAREN"
  | rightParen => "RPAREN"
  | leftBrace => "LBRACE"
  | rightBrace => "RBRACE"
  | leftBracket => "LBRACKET"
  | rightBracket => "RBRACKET"
  | comma => "COMMA"
  | colon => "COLON"
  | semicolon => "SEMICOLON"
  | dot => "DOT"

/-- Every symbol, those with longer spellings first. -/
def all : List Symbol :=
  [shiftLeftAssign, shiftRightAssign,
   and, or, equal, lessEqual, greaterEqual, shiftLeft, shiftRight, assign,
   plusAssign, minusAssign, starAssign, slashAssign, percentAssign, andAssign, orAssign, xorAssign,
   plus, minus, star, slash, percent, ampersand, pipe, caret, tilde, not, less, greater,
   leftParen, rightParen, leftBrace, rightBrace, leftBracket, rightBracket,
   comma, colon, semicolon, dot]

theorem mem_all (s : Symbol) : s ∈ all := by cases s <;> decide

/-- **Longer spellings come first.** -/
theorem all_pairwise :
    all.Pairwise fun a b => b.spelling.toList.length ≤ a.spelling.toList.length := by decide

/-- The symbol with the longest spelling that a text starts with. -/
def front? (text : List Char) : Option Symbol :=
  all.find? fun s => s.spelling.toList.isPrefixOf text

end Symbol

/-- What a token is. -/
inductive Kind
  /-- The end of a source. -/
  | endOfInput
  /-- Stands for text that is no token; a diagnostic has been given for it. -/
  | error
  | identifier
  | number
  | string
  | char
  | keyword (k : Keyword)
  | symbol (s : Symbol)
  deriving DecidableEq

namespace Kind

/-- The name of a kind in token listings. -/
def name : Kind → String
  | endOfInput => "EOF"
  | error => "ERROR"
  | identifier => "IDENTIFIER"
  | number => "NUMBER"
  | string => "STRING"
  | char => "CHAR"
  | keyword k => k.spelling.toUpper
  | symbol s => s.name

/-- Every kind. -/
def all : List Kind :=
  [endOfInput, error, identifier, number, string, char] ++ Keyword.all.map keyword ++
    Symbol.all.map symbol

/-- The kind with a name. -/
def ofName? (text : String) : Option Kind := all.find? (·.name = text)

end Kind

/-- A token: its kind, its text in the source, and where it stands. -/
structure Token where
  kind : Kind
  lexeme : String
  span : Span
  deriving DecidableEq

namespace Token

/-- Where the token starts. -/
def place (t : Token) : Location := t.span.start

/-- The token ends its source. -/
def isEnd (t : Token) : Bool := t.kind = .endOfInput

/-- The token stands for text that is no token. -/
def isError (t : Token) : Bool := t.kind = .error

/-- The token that ends a source at a location. -/
def endAt (l : Location) : Token := ⟨.endOfInput, "", .point l⟩

/-- The token as diagnostics name it. -/
def describe (t : Token) : String :=
  if t.isEnd then "end of input" else s!"'{t.lexeme}'"

/-- The token as developers see it: kind, text and place. -/
def summary (t : Token) : String :=
  let text := if t.lexeme.isEmpty then "" else s!" {Quoted.ofText t.lexeme},"
  s!"Token({t.kind.name},{text} {t.place.line}:{t.place.column})"

end Token

end ArcLang
