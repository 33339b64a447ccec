import Mathlib.Data.List.Forall2
import ArcLang.Proofs.Spelling
import ArcLang.Tree

/-!
# A tree as a sequence of marks

Flattened in order, a tree gives its keywords, punctuation, names, operators and literals. A mark is
one of these, or the length of an array, which a token may spell in several ways.

* `Program.marks`: the flattening.
* `Mark.Fits`: the tokens that stand for a mark.
-/

namespace ArcLang

/-- What one token of a tree's text says. -/
inductive Mark
  | word (kind : Kind) (text : String)
  | length (n : Nat)

namespace Mark

/-- The mark of a reserved word. -/
def keyword (k : Keyword) : Mark := word (.keyword k) k.spelling

/-- The mark of a symbol. -/
def symbol (s : Symbol) : Mark := word (.symbol s) s.spelling

/-- The mark of a name. -/
def name (text : String) : Mark := word .identifier text

/-- The token stands for the mark; for a length, if it is a number with that value. -/
def Fits : Mark → Token → Prop
  | word kind text, t => t.kind = kind ∧ t.lexeme = text
  | length n, t => t.kind = .number ∧ Numeral.resolve t.lexeme = .length n

/-- Sequences with commas between neighbours. -/
def commaSeparated : List (List Mark) → List Mark
  | [] => []
  | [ms] => ms
  | ms :: next :: more => ms ++ symbol .comma :: commaSeparated (next :: more)

end Mark

open Mark (keyword symbol name commaSeparated)

/-- The marks of a type, in order. -/
def TypeName.marks : TypeName → List Mark
  | bool _ => [keyword .bool]
  | float _ => [keyword .float]
  | int _ signed width => [keyword (.int signed width)]
  | named _ text => [name text]
  | array _ element n =>
    symbol .leftBracket :: element.marks ++ [symbol .comma, .length n, symbol .rightBracket]

namespace Expr

/-- The text between quotes. -/
def quoted (quote : Char) (text : String) : String :=
  String.ofList (quote :: text.toList ++ [quote])

mutual

/-- The marks of an expression, in order. -/
def marks : Expr → List Mark
  | char _ text => [.word .char (quoted '\x27' text)]
  | string _ text => [.word .string (quoted '"' text)]
  | number _ text _ => [.word .number text]
  | boolean _ value => [keyword (.boolean value)]
  | array _ elements =>
    symbol .leftBracket :: commaSeparated (marksEach elements) ++ [symbol .rightBracket]
  | name _ text => [Mark.name text]
  | member _ target text => target.marks ++ [symbol .dot, Mark.name text]
  | index _ target place =>
    target.marks ++ symbol .leftBracket :: place.marks ++ [symbol .rightBracket]
  | call _ callee arguments =>
    callee.marks ++ symbol .leftParen :: commaSeparated (marksEach arguments) ++
      [symbol .rightParen]
  | binary _ op left right => left.marks ++ symbol op.symbol :: right.marks
  | unary _ op operand => symbol op.symbol :: operand.marks
  | paren _ inner => symbol .leftParen :: inner.marks ++ [symbol .rightParen]
  | assign _ target op value => target.marks ++ symbol op.symbol :: value.marks

/-- The marks of each expression of a list. -/
def marksEach : List Expr → List (List Mark)
  | [] => []
  | e :: more => e.marks :: marksEach more

end

theorem marksEach_eq (es : List Expr) : marksEach es = es.map marks := by
  induction es with
  | nil => rfl
  | cons e es ih => rw [marksEach, ih]; rfl

end Expr

mutual

/-- The marks of a statement, in order. -/
def Stmt.marks : Stmt → List Mark
  | .breakLoop _ => [keyword .breakWord, symbol .semicolon]
  | .ret _ value =>
    keyword .returnWord :: (value.map Expr.marks).getD [] ++ [symbol .semicolon]
  | .loop _ condition body => keyword .whileWord :: condition.marks ++ body.marks
  | .branch _ condition consequent none =>
    keyword .ifWord :: condition.marks ++ consequent.marks
  | .branch _ condition consequent (some alternate) =>
    keyword .ifWord :: condition.marks ++ consequent.marks ++
      keyword .elseWord :: alternate.marks
  | .expression _ e => e.marks ++ [symbol .semicolon]

/-- The marks of a body, braces included. -/
def Block.marks : Block → List Mark
  | .mk _ statements =>
    symbol .leftBrace :: Stmt.marksEach statements ++ [symbol .rightBrace]

/-- The marks of statements one after the other. -/
def Stmt.marksEach : List Stmt → List Mark
  | [] => []
  | s :: more => s.marks ++ Stmt.marksEach more

end

/-- The marks of a name with its type. -/
def Binding.marks (b : Binding) : List Mark := Mark.name b.name :: symbol .colon :: b.type.marks

/-- The marks of a function, in order. -/
def Function.marks (f : Function) : List Mark :=
  keyword .function :: Mark.name f.name :: symbol .leftParen ::
    commaSeparated (f.parameters.map Binding.marks) ++ symbol .rightParen ::
      (f.result.map fun t => symbol .colon :: t.marks).getD [] ++ f.body.marks

/-- The marks of a struct, in order. -/
def Struct.marks (s : Struct) : List Mark :=
  keyword .struct :: Mark.name s.name :: symbol .leftBrace ::
    commaSeparated (s.fields.map Binding.marks) ++ [symbol .rightBrace]

/-- The marks of an item, in order. -/
def Item.marks : Item → List Mark
  | function f => f.marks
  | struct s => s.marks
  | statement s => s.marks

/-- The marks of a program in the order of the source. -/
def Program.marks (p : Program) : List Mark := p.items.flatMap Item.marks

end ArcLang
