import ArcLang.Operator
import ArcLang.Numeral

/-!
# Programs as trees

The tree of a program. Every node carries the span of source that it stands for. What may occur
where is in the types: definitions stand only in a program, blocks only as bodies.
-/

namespace ArcLang

/-- The name of a type. -/
inductive TypeName
  | bool (span : Span)
  | float (span : Span)
  | int (span : Span) (signed : Bool) (width : Width)
  | array (span : Span) (element : TypeName) (length : Nat)
  | named (span : Span) (name : String)

namespace TypeName

/-- The span that a type stands for. -/
def span : TypeName → Span
  | bool span | float span | int span .. | array span .. | named span _ => span

end TypeName

/-- An expression. Parentheses are kept. -/
inductive Expr
  | char (span : Span) (text : String)
  | string (span : Span) (text : String)
  | number (span : Span) (text : String) (radix : Radix)
  | boolean (span : Span) (value : Bool)
  | array (span : Span) (elements : List Expr)
  | name (span : Span) (text : String)
  | member (span : Span) (target : Expr) (name : String)
  | index (span : Span) (target : Expr) (index : Expr)
  | call (span : Span) (callee : Expr) (arguments : List Expr)
  | binary (span : Span) (op : BinaryOp) (left right : Expr)
  | unary (span : Span) (op : UnaryOp) (operand : Expr)
  | paren (span : Span) (inner : Expr)
  | assign (span : Span) (target : Expr) (op : AssignOp) (value : Expr)

namespace Expr

/-- The span that an expression stands for. -/
def span : Expr → Span
  | char span _ | string span _ | number span .. | boolean span _ | array span _
  | name span _ | member span .. | index span .. | call span .. | binary span ..
  | unary span .. | paren span _ | assign span .. => span

/-- The expression names a place that can be assigned to. -/
def isAddressable : Expr → Bool
  | name .. | member .. | index .. => true
  | _ => false

end Expr

mutual

/-- A statement. -/
inductive Stmt
  | breakLoop (span : Span)
  | ret (span : Span) (value : Option Expr)
  | loop (span : Span) (condition : Expr) (body : Block)
  | branch (span : Span) (condition : Expr) (consequent : Block) (alternate : Option Block)
  | expression (span : Span) (expr : Expr)

/-- A body: statements between braces. -/
inductive Block
  | mk (span : Span) (statements : List Stmt)

end

namespace Stmt

/-- The span that a statement stands for. -/
def span : Stmt → Span
  | breakLoop span | ret span _ | loop span .. | branch span .. | expression span _ => span

end Stmt

namespace Block

/-- The span of a body, braces included. -/
def span : Block → Span
  | mk span _ => span

/-- The statements of a body, in order. -/
def statements : Block → List Stmt
  | mk _ statements => statements

end Block

/-- A name with a type: a parameter of a function or a field of a struct. -/
structure Binding where
  span : Span
  name : String
  type : TypeName

/-- A function. What it gives back has a type only if one is written. -/
structure Function where
  span : Span
  name : String
  parameters : List Binding
  result : Option TypeName
  body : Block

/-- A struct. -/
structure Struct where
  span : Span
  name : String
  fields : List Binding

/-- What a program is made of. -/
inductive Item
  | function (f : Function)
  | struct (s : Struct)
  | statement (s : Stmt)

namespace Item

/-- The span that an item stands for. -/
def span : Item → Span
  | function f => f.span
  | struct s => s.span
  | statement s => s.span

end Item

/-- A program: the whole of a text. -/
structure Program where
  span : Span
  items : List Item

namespace Program

/-- The functions in the order of their definitions. -/
def functions (p : Program) : List Function :=
  p.items.filterMap fun
    | .function f => some f
    | _ => none

/-- The structs in the order of their definitions. -/
def structs (p : Program) : List Struct :=
  p.items.filterMap fun
    | .struct s => some s
    | _ => none

end Program

end ArcLang
