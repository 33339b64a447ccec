import ArcLang.Proofs.Grouping
import ArcLang.Token

/-!
# The grammar

A derivation has one type for each nonterminal of the grammar and one constructor for each of its
alternatives, with tokens of the right kinds at the leaves. `tokens` is the sequence that it
derives, and `tree` what it denotes; operators of a chain are grouped by precedence.

    program   ::= (function | struct | statement)*
    function  ::= 'fun' IDENTIFIER '(' bindings? ')' (':' type)? body
    struct    ::= 'struct' IDENTIFIER '{' bindings? '}'
    bindings  ::= binding (',' binding)* ','?
    binding   ::= IDENTIFIER ':' type
    type      ::= 'bool' | 'float' | int_type | IDENTIFIER | '[' type ',' NUMBER ']'
    body      ::= '{' statement* '}'
    statement ::= 'break' ';' | 'return' expr? ';' | 'while' expr body
                | 'if' expr body ('else' body)? | expr ';'
    expr      ::= chain (assign_op expr)?
    chain     ::= operand (binary_op operand)*
    operand   ::= unary_op operand | trailed
    trailed   ::= primary ('.' IDENTIFIER | '[' expr ']' | '(' args? ')')*
    args      ::= expr (',' expr)* ','?
    primary   ::= NUMBER | CHAR | STRING | 'true' | 'false' | IDENTIFIER
                | '(' expr ')' | '[' args? ']'
-/

namespace ArcLang.Grammar

/-- A token of a kind. -/
abbrev Word (kind : Kind) := { t : Token // t.kind = kind }

/-- A token that writes a symbol. -/
abbrev Sign (s : Symbol) := Word (.symbol s)

/-- Elements with commas between neighbours. A comma may stand behind the last. -/
inductive Elements (α : Type)
  | none
  | last (element : α)
  | more (element : α) (comma : Sign .comma) (rest : Elements α)

namespace Elements

variable {α β : Type}

/-- The tokens of elements and of the commas between them. -/
def tokens (f : α → List Token) : Elements α → List Token
  | none => []
  | last a => f a
  | more a comma rest => f a ++ comma.1 :: rest.tokens f

/-- The elements without their commas. -/
def list : Elements α → List α
  | none => []
  | last a => [a]
  | more a _ rest => a :: rest.list

end Elements

/-- `type ::= 'bool' | 'float' | INT_TYPE | IDENTIFIER | '[' type ',' NUMBER ']'` -/
inductive TypeName
  | bool (word : Word (.keyword .bool))
  | float (word : Word (.keyword .float))
  | int (signed : Bool) (width : Width) (word : Word (.keyword (.int signed width)))
  | named (word : Word .identifier)
  | array (opener : Sign .leftBracket) (element : TypeName) (comma : Sign .comma)
    (length : Word .number) (closer : Sign .rightBracket)

mutual

/-- `expr ::= chain (assign_op expr)?` -/
inductive Expr
  | plain (operand : Chain)
  | assign (target : Chain) (op : AssignOp) (sign : Sign op.symbol) (value : Expr)

/-- `chain ::= operand (binary_op operand)*` -/
inductive Chain
  | single (operand : Operand)
  | more (front : Chain) (op : BinaryOp) (sign : Sign op.symbol) (operand : Operand)

/-- `operand ::= unary_op operand | trailed` -/
inductive Operand
  | unary (op : UnaryOp) (sign : Sign op.symbol) (operand : Operand)
  | trailed (e : Trailed)

/-- `trailed ::= primary ('.' IDENTIFIER | '[' expr ']' | '(' args? ')')*` -/
inductive Trailed
  | primary (e : Primary)
  | member (target : Trailed) (dot : Sign .dot) (name : Word .identifier)
  | index (target : Trailed) (opener : Sign .leftBracket) (index : Expr)
    (closer : Sign .rightBracket)
  | call (callee : Trailed) (opener : Sign .leftParen) (arguments : Elements Expr)
    (closer : Sign .rightParen)

/-- `primary ::= NUMBER | CHAR | STRING | 'true' | 'false' | IDENTIFIER | '(' expr ')' | '[' args?
']'` -/
inductive Primary
  | number (word : Word .number)
  | char (word : Word .char)
  | string (word : Word .string)
  | boolean (value : Bool) (word : Word (.keyword (.boolean value)))
  | name (word : Word .identifier)
  | paren (opener : Sign .leftParen) (inner : Expr) (closer : Sign .rightParen)
  | array (opener : Sign .leftBracket) (elements : Elements Expr) (closer : Sign .rightBracket)

end

mutual

/-- A statement by its first word, or an expression with a semicolon. -/
inductive Statement
  | breakLoop (word : Word (.keyword .breakWord)) (stop : Sign .semicolon)
  | ret (word : Word (.keyword .returnWord)) (value : Option Expr) (stop : Sign .semicolon)
  | loop (word : Word (.keyword .whileWord)) (condition : Expr) (body : Body)
  | branch (word : Word (.keyword .ifWord)) (condition : Expr) (consequent : Body)
  | branchElse (word : Word (.keyword .ifWord)) (condition : Expr) (consequent : Body)
    (other : Word (.keyword .elseWord)) (alternate : Body)
  | expression (e : Expr) (stop : Sign .semicolon)

/-- `body ::= '{' statement* '}'` -/
inductive Body
  | mk (opener : Sign .leftBrace) (statements : List Statement) (closer : Sign .rightBrace)

end

/-- A name with its type, as a parameter or a field. -/
structure Binding where
  name : Word .identifier
  colon : Sign .colon
  type : TypeName

/-- A function, from its first word to its body. -/
structure Function where
  word : Word (.keyword .function)
  name : Word .identifier
  opener : Sign .leftParen
  parameters : Elements Binding
  closer : Sign .rightParen
  result : Option (Sign .colon × TypeName)
  body : Body

/-- A struct, from its first word to its closing brace. -/
structure Struct where
  word : Word (.keyword .struct)
  name : Word .identifier
  opener : Sign .leftBrace
  fields : Elements Binding
  closer : Sign .rightBrace

/-- A definition, or a statement outside functions. -/
inductive Item
  | function (f : Function)
  | struct (s : Struct)
  | statement (s : Statement)

/-- A sequence of items. -/
structure Program where
  items : List Item

/-! ## The sequence that is derived -/

/-- The tokens of a type, in order. -/
def TypeName.tokens : TypeName → List Token
  | bool word => [word.1]
  | float word => [word.1]
  | int _ _ word => [word.1]
  | named word => [word.1]
  | array opener element comma length closer =>
    opener.1 :: element.tokens ++ [comma.1, length.1, closer.1]

mutual

/-- The tokens of an expression, in order. -/
def Expr.tokens : Expr → List Token
  | .plain operand => operand.tokens
  | .assign target _ sign value => target.tokens ++ sign.1 :: value.tokens

/-- The tokens of operands and of the operators between them, in order. -/
def Chain.tokens : Chain → List Token
  | .single operand => operand.tokens
  | .more front _ sign operand => front.tokens ++ sign.1 :: operand.tokens

/-- The tokens of an operand, in order. -/
def Operand.tokens : Operand → List Token
  | .unary _ sign operand => sign.1 :: operand.tokens
  | .trailed e => e.tokens

/-- The tokens of a primary expression and of what trails it, in order. -/
def Trailed.tokens : Trailed → List Token
  | .primary e => e.tokens
  | .member target dot name => target.tokens ++ [dot.1, name.1]
  | .index target opener index closer =>
    target.tokens ++ opener.1 :: index.tokens ++ [closer.1]
  | .call callee opener arguments closer =>
    callee.tokens ++ opener.1 :: elementsTokens arguments ++ [closer.1]

/-- The tokens of a primary expression, in order. -/
def Primary.tokens : Primary → List Token
  | .number word => [word.1]
  | .char word => [word.1]
  | .string word => [word.1]
  | .boolean _ word => [word.1]
  | .name word => [word.1]
  | .paren opener inner closer => opener.1 :: inner.tokens ++ [closer.1]
  | .array opener elements closer => opener.1 :: elementsTokens elements ++ [closer.1]

/-- The tokens of expressions and of the commas between them. -/
def elementsTokens : Elements Expr → List Token
  | .none => []
  | .last e => e.tokens
  | .more e comma rest => e.tokens ++ comma.1 :: elementsTokens rest

end

mutual

/-- The tokens of a statement, in order. -/
def Statement.tokens : Statement → List Token
  | .breakLoop word stop => [word.1, stop.1]
  | .ret word value stop => word.1 :: (value.map Expr.tokens).getD [] ++ [stop.1]
  | .loop word condition body => word.1 :: condition.tokens ++ body.tokens
  | .branch word condition consequent => word.1 :: condition.tokens ++ consequent.tokens
  | .branchElse word condition consequent other alternate =>
    word.1 :: condition.tokens ++ consequent.tokens ++ other.1 :: alternate.tokens
  | .expression e stop => e.tokens ++ [stop.1]

/-- The tokens of a body, braces included. -/
def Body.tokens : Body → List Token
  | .mk opener statements closer => opener.1 :: statementsTokens statements ++ [closer.1]

/-- The tokens of statements one after the other. -/
def statementsTokens : List Statement → List Token
  | [] => []
  | s :: more => s.tokens ++ statementsTokens more

end

/-- The tokens of a name with its type. -/
def Binding.tokens (b : Binding) : List Token := b.name.1 :: b.colon.1 :: b.type.tokens

/-- The tokens of a function, in order. -/
def Function.tokens (f : Function) : List Token :=
  f.word.1 :: f.name.1 :: f.opener.1 :: f.parameters.tokens Binding.tokens ++
    f.closer.1 :: (f.result.map fun r => r.1.1 :: r.2.tokens).getD [] ++ f.body.tokens

/-- The tokens of a struct, in order. -/
def Struct.tokens (s : Struct) : List Token :=
  s.word.1 :: s.name.1 :: s.opener.1 :: s.fields.tokens Binding.tokens ++ [s.closer.1]

/-- The tokens of an item, in order. -/
def Item.tokens : Item → List Token
  | function f => f.tokens
  | struct s => s.tokens
  | statement s => s.tokens

/-- The sequence of tokens that a derivation of a program derives. -/
def Program.tokens (p : Program) : List Token := p.items.flatMap Item.tokens

/-! ## The tree that is denoted -/

/-- The value of a length; it only counts where the spelling has one. -/
def lengthOf (word : Word .number) : Nat :=
  match Numeral.resolve word.1.lexeme with
  | .length n => n
  | _ => 0

/-- The type that is denoted. -/
def TypeName.tree : TypeName → ArcLang.TypeName
  | bool word => .bool word.1.span
  | float word => .float word.1.span
  | int signed width word => .int word.1.span signed width
  | named word => .named word.1.span word.1.lexeme
  | array opener element _ length closer =>
    .array (opener.1.span.upTo closer.1.span) element.tree (lengthOf length)

/-- A literal's text without its quotes. -/
def unquoted (word : Token) : String := String.ofList (word.lexeme.toList.drop 1).dropLast

mutual

/-- The expression that is denoted. -/
def Expr.tree : Expr → ArcLang.Expr
  | .plain operand => operand.tree
  | .assign target op _ value =>
    .assign (target.tree.span.upTo value.tree.span) target.tree op value.tree

/-- Operators are put behind the tree of what is in front of them one after the other. -/
def Chain.tree : Chain → ArcLang.Expr
  | .single operand => operand.tree
  | .more front op _ operand => ArcLang.Expr.graft op operand.tree front.tree

/-- The operand that is denoted. -/
def Operand.tree : Operand → ArcLang.Expr
  | .unary op sign operand => .unary (sign.1.span.upTo operand.tree.span) op operand.tree
  | .trailed e => e.tree

/-- What trails a primary expression goes around it from the inside out. -/
def Trailed.tree : Trailed → ArcLang.Expr
  | .primary e => e.tree
  | .member target _ name => .member (target.tree.span.upTo name.1.span) target.tree name.1.lexeme
  | .index target _ index closer =>
    .index (target.tree.span.upTo closer.1.span) target.tree index.tree
  | .call callee _ arguments closer =>
    .call (callee.tree.span.upTo closer.1.span) callee.tree (elementsTrees arguments)

/-- The primary expression that is denoted. -/
def Primary.tree : Primary → ArcLang.Expr
  | .number word => .number word.1.span word.1.lexeme (.of word.1.lexeme)
  | .char word => .char word.1.span (unquoted word.1)
  | .string word => .string word.1.span (unquoted word.1)
  | .boolean value word => .boolean word.1.span value
  | .name word => .name word.1.span word.1.lexeme
  | .paren opener inner closer => .paren (opener.1.span.upTo closer.1.span) inner.tree
  | .array opener elements closer =>
    .array (opener.1.span.upTo closer.1.span) (elementsTrees elements)

/-- The expressions that are denoted, in order. -/
def elementsTrees : Elements Expr → List ArcLang.Expr
  | .none => []
  | .last e => [e.tree]
  | .more e _ rest => e.tree :: elementsTrees rest

end

mutual

/-- The statement that is denoted. -/
def Statement.tree : Statement → Stmt
  | .breakLoop word stop => .breakLoop (word.1.span.upTo stop.1.span)
  | .ret word value stop => .ret (word.1.span.upTo stop.1.span) (value.map Expr.tree)
  | .loop word condition body =>
    .loop (word.1.span.upTo body.tree.span) condition.tree body.tree
  | .branch word condition consequent =>
    .branch (word.1.span.upTo consequent.tree.span) condition.tree consequent.tree none
  | .branchElse word condition consequent _ alternate =>
    .branch (word.1.span.upTo alternate.tree.span) condition.tree consequent.tree
      (some alternate.tree)
  | .expression e stop => .expression (e.tree.span.upTo stop.1.span) e.tree

/-- The body that is denoted. -/
def Body.tree : Body → Block
  | .mk opener statements closer =>
    .mk (opener.1.span.upTo closer.1.span) (statementsTrees statements)

/-- The statements that are denoted, in order. -/
def statementsTrees : List Statement → List Stmt
  | [] => []
  | s :: more => s.tree :: statementsTrees more

end

/-- The parameter or field that is denoted. -/
def Binding.tree (b : Binding) : ArcLang.Binding :=
  ⟨b.name.1.span.upTo b.type.tree.span, b.name.1.lexeme, b.type.tree⟩

/-- The function that is denoted. -/
def Function.tree (f : Function) : ArcLang.Function :=
  ⟨f.word.1.span.upTo f.body.tree.span, f.name.1.lexeme, f.parameters.list.map Binding.tree,
    f.result.map (·.2.tree), f.body.tree⟩

/-- The struct that is denoted. -/
def Struct.tree (s : Struct) : ArcLang.Struct :=
  ⟨s.word.1.span.upTo s.closer.1.span, s.name.1.lexeme, s.fields.list.map Binding.tree⟩

/-- The item that is denoted. -/
def Item.tree : Item → ArcLang.Item
  | function f => .function f.tree
  | struct s => .struct s.tree
  | statement s => .statement s.tree

/-- The items that a derivation of a program denotes. -/
def Program.trees (p : Program) : List ArcLang.Item := p.items.map Item.tree

/-! ## The lengths of arrays -/

/-- The tokens that stand for lengths of arrays. -/
def TypeName.lengths : TypeName → List Token
  | array _ element _ length _ => element.lengths ++ [length.1]
  | _ => []

/-- The tokens that stand for lengths of arrays; statements have none. -/
def Item.lengths : Item → List Token
  | function f => f.parameters.list.flatMap (·.type.lengths) ++
      (f.result.map (·.2.lengths)).getD []
  | struct s => s.fields.list.flatMap (·.type.lengths)
  | statement _ => []

/-- The tokens that stand for lengths of arrays. -/
def Program.lengths (p : Program) : List Token := p.items.flatMap Item.lengths

/-- Each of the tokens spells a length. -/
def Resolve (lengths : List Token) : Prop :=
  ∀ t ∈ lengths, ∃ n, Numeral.resolve t.lexeme = .length n

end ArcLang.Grammar
