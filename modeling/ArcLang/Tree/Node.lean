import ArcLang.Tree

/-!
# Nodes

One type for every part of a tree, so that a tree can be walked without regard to what its parts
are: each node has a class, a span and its children in the order of the source.

* `Node.outline_eq`: a node is listed before its children, which are one level deeper.
* `Node.sizeOf_lt_of_mem_children`: children are smaller, so every walk ends.
-/

namespace ArcLang

/-- A part of a tree, whatever it is. -/
inductive Node
  | program (p : Program)
  | function (f : Function)
  | parameter (b : Binding)
  | struct (s : Struct)
  | field (b : Binding)
  | block (b : Block)
  | statement (s : Stmt)
  | expression (e : Expr)
  | typeName (t : TypeName)

namespace Node

/-- The span that a node stands for. -/
def span : Node → Span
  | program p => p.span
  | function f => f.span
  | parameter b | field b => b.span
  | struct s => s.span
  | block b => b.span
  | statement s => s.span
  | expression e => e.span
  | typeName t => t.span

/-- The class of an expression, as listings name it. -/
def expressionClass : Expr → String
  | .char .. => "CharLiteral"
  | .string .. => "StrLiteral"
  | .number .. => "NumLiteral"
  | .boolean .. => "BoolLiteral"
  | .array .. => "ArrayLiteral"
  | .name .. => "Variable"
  | .member .. => "Member"
  | .index .. => "Index"
  | .call .. => "Call"
  | .binary .. => "Binary"
  | .unary .. => "Prefix"
  | .paren .. => "Paren"
  | .assign .. => "Assign"

/-- The class of a statement, as listings name it. -/
def statementClass : Stmt → String
  | .breakLoop _ => "Break"
  | .ret .. => "Return"
  | .loop .. => "While"
  | .branch .. => "If"
  | .expression .. => "ExprStmt"

/-- The class of a type name, as listings name it. -/
def typeClass : TypeName → String
  | .bool _ => "BoolType"
  | .float _ => "FloatType"
  | .int .. => "IntType"
  | .array .. => "ArrayType"
  | .named .. => "NamedType"

/-- The class of a node, as listings name it. -/
def className : Node → String
  | program _ => "Program"
  | function _ => "FunctionDef"
  | parameter _ => "Parameter"
  | struct _ => "StructDef"
  | field _ => "StructField"
  | block _ => "Block"
  | statement s => statementClass s
  | expression e => expressionClass e
  | typeName t => typeClass t

/-- The node of an item. -/
def ofItem : Item → Node
  | .function f => function f
  | .struct s => struct s
  | .statement s => statement s

/-- The direct parts of an expression. -/
def expressionChildren : Expr → List Expr
  | .char .. | .string .. | .number .. | .boolean .. | .name .. => []
  | .array _ elements => elements
  | .member _ target _ => [target]
  | .index _ target index => [target, index]
  | .call _ callee arguments => callee :: arguments
  | .binary _ _ left right => [left, right]
  | .unary _ _ operand => [operand]
  | .paren _ inner => [inner]
  | .assign _ target _ value => [target, value]

/-- The direct parts of a statement. -/
def statementChildren : Stmt → List Node
  | .breakLoop _ => []
  | .ret _ value => value.toList.map expression
  | .loop _ condition body => [expression condition, block body]
  | .branch _ condition consequent alternate =>
    expression condition :: block consequent :: alternate.toList.map block
  | .expression _ expr => [expression expr]

/-- The direct parts of a node, in the order of the source. -/
def children : Node → List Node
  | program p => p.items.map ofItem
  | function f =>
    f.parameters.map parameter ++ f.result.toList.map typeName ++ [block f.body]
  | struct s => s.fields.map field
  | parameter b | field b => [typeName b.type]
  | block b => b.statements.map statement
  | statement s => statementChildren s
  | expression e => (expressionChildren e).map expression
  | typeName (.array _ element _) => [typeName element]
  | typeName _ => []

theorem sizeOf_lt_of_mem_expressionChildren {e c : Expr} (h : c ∈ expressionChildren e) :
    sizeOf c < sizeOf e := by
  have pair {a b : Expr} (h : c ∈ [a, b]) : c = a ∨ c = b := by simpa using h
  cases e with
  | char | string | number | boolean | name => exact absurd h List.not_mem_nil
  | array span elements =>
    have := List.sizeOf_lt_of_mem (show c ∈ elements from h)
    rw [Expr.array.sizeOf_spec]; omega
  | call span callee arguments =>
    rw [Expr.call.sizeOf_spec]
    rcases List.mem_cons.1 h with rfl | h
    · omega
    · have := List.sizeOf_lt_of_mem h; omega
  | member span target =>
    rw [List.mem_singleton.1 h, Expr.member.sizeOf_spec]; omega
  | unary span op operand =>
    rw [List.mem_singleton.1 h, Expr.unary.sizeOf_spec]; omega
  | paren span inner =>
    rw [List.mem_singleton.1 h, Expr.paren.sizeOf_spec]; omega
  | index span target place =>
    rw [Expr.index.sizeOf_spec]
    rcases pair h with rfl | rfl <;> omega
  | binary span op left right =>
    rw [Expr.binary.sizeOf_spec]
    rcases pair h with rfl | rfl <;> omega
  | assign span target op value =>
    rw [Expr.assign.sizeOf_spec]
    rcases pair h with rfl | rfl <;> omega

theorem sizeOf_lt_of_mem_statementChildren {s : Stmt} {c : Node} (h : c ∈ statementChildren s) :
    sizeOf c < 1 + sizeOf s := by
  cases s with
  | breakLoop => exact absurd h List.not_mem_nil
  | ret span value =>
    rw [Stmt.ret.sizeOf_spec]
    simp only [statementChildren, List.mem_map, Option.mem_toList] at h
    obtain ⟨e, rfl, rfl⟩ := h
    rw [Node.expression.sizeOf_spec, Option.some.sizeOf_spec]; omega
  | loop =>
    rw [Stmt.loop.sizeOf_spec]
    simp only [statementChildren, List.mem_cons, List.not_mem_nil, or_false] at h
    rcases h with rfl | rfl
    · rw [Node.expression.sizeOf_spec]; omega
    · rw [Node.block.sizeOf_spec]; omega
  | branch span condition consequent alternate =>
    rw [Stmt.branch.sizeOf_spec]
    simp only [statementChildren, List.mem_cons, List.mem_map, Option.mem_toList] at h
    rcases h with rfl | rfl | ⟨b, rfl, rfl⟩
    · rw [Node.expression.sizeOf_spec]; omega
    · rw [Node.block.sizeOf_spec]; omega
    · rw [Node.block.sizeOf_spec, Option.some.sizeOf_spec]; omega
  | expression =>
    rw [List.mem_singleton.1 h, Node.expression.sizeOf_spec, Stmt.expression.sizeOf_spec]
    omega

/-- **The parts of a node are smaller than the node.** -/
theorem sizeOf_lt_of_mem_children {n c : Node} (h : c ∈ n.children) : sizeOf c < sizeOf n := by
  cases n with
  | program p =>
    obtain ⟨⟨⟩ | ⟨⟩ | ⟨⟩, hi, rfl⟩ := List.mem_map.1 h <;>
    · have := List.sizeOf_lt_of_mem hi
      cases p
      simp_all only [ofItem, Node.program.sizeOf_spec, Program.mk.sizeOf_spec,
        Node.function.sizeOf_spec, Node.struct.sizeOf_spec, Node.statement.sizeOf_spec,
        Item.function.sizeOf_spec, Item.struct.sizeOf_spec, Item.statement.sizeOf_spec]
      omega
  | function f =>
    cases f with | mk span name parameters result body =>
    rw [Node.function.sizeOf_spec, Function.mk.sizeOf_spec]
    simp only [children, List.mem_append, List.mem_map, Option.mem_toList, List.mem_singleton,
      or_assoc] at h
    rcases h with ⟨b, hb, rfl⟩ | ⟨t, rfl, rfl⟩ | rfl
    · have := List.sizeOf_lt_of_mem hb
      rw [Node.parameter.sizeOf_spec]; omega
    · rw [Node.typeName.sizeOf_spec, Option.some.sizeOf_spec]; omega
    · rw [Node.block.sizeOf_spec]; omega
  | parameter b =>
    cases b
    rw [List.mem_singleton.1 h, Node.typeName.sizeOf_spec, Node.parameter.sizeOf_spec,
      Binding.mk.sizeOf_spec]
    dsimp only; omega
  | field b =>
    cases b
    rw [List.mem_singleton.1 h, Node.typeName.sizeOf_spec, Node.field.sizeOf_spec,
      Binding.mk.sizeOf_spec]
    dsimp only; omega
  | struct s =>
    obtain ⟨b, hb, rfl⟩ := List.mem_map.1 h
    have := List.sizeOf_lt_of_mem hb
    cases s
    rw [Node.field.sizeOf_spec, Node.struct.sizeOf_spec, Struct.mk.sizeOf_spec]
    simp only at this; omega
  | block b =>
    obtain ⟨s, hs, rfl⟩ := List.mem_map.1 h
    cases b
    have := List.sizeOf_lt_of_mem hs
    rw [Node.statement.sizeOf_spec, Node.block.sizeOf_spec, Block.mk.sizeOf_spec]
    simp only [Block.statements] at this; omega
  | statement s =>
    have := sizeOf_lt_of_mem_statementChildren h
    rw [Node.statement.sizeOf_spec]; omega
  | expression e =>
    obtain ⟨c, hc, rfl⟩ := List.mem_map.1 h
    have := sizeOf_lt_of_mem_expressionChildren hc
    rw [Node.expression.sizeOf_spec, Node.expression.sizeOf_spec]; omega
  | typeName t =>
    cases t with
    | array span element length =>
      rw [List.mem_singleton.1 h, Node.typeName.sizeOf_spec, Node.typeName.sizeOf_spec,
        TypeName.array.sizeOf_spec]
      omega
    | _ => exact absurd h List.not_mem_nil

/-- The nodes of a tree with their depths, each before its children. -/
def outline (depth : Nat) (n : Node) : List (Nat × Node) :=
  (depth, n) :: n.children.attach.flatMap fun ⟨c, _⟩ => outline (depth + 1) c
termination_by sizeOf n
decreasing_by exact sizeOf_lt_of_mem_children ‹_›

theorem outline_eq (depth : Nat) (n : Node) :
    n.outline depth = (depth, n) :: n.children.flatMap (outline (depth + 1)) := by
  rw [outline]; simp

/-- The child with a number; negative numbers count from the last child. -/
def child? (n : Node) (i : Int) : Option Node :=
  let place := if i < 0 then i + n.children.length else i
  if 0 ≤ place then n.children[place.toNat]? else none

/-- The node that a path of child numbers leads to. -/
def descend : List Int → Node → Option Node
  | [], n => some n
  | i :: path, n => (n.child? i).bind (descend path)

/-- What a visitor does at a node. -/
inductive Visit
  /-- Goes on to the children without a note. -/
  | pass
  /-- Notes the node and goes on to the children. -/
  | enter
  /-- Notes the node and leaves its children out. -/
  | stop
  deriving DecidableEq

/-- The nodes that a visitor notes, in the order of its coming. -/
def visited (plan : Node → Visit) (n : Node) : List Node :=
  let below := n.children.attach.flatMap fun ⟨c, _⟩ => visited plan c
  match plan n with
  | .pass => below
  | .enter => n :: below
  | .stop => [n]
termination_by sizeOf n
decreasing_by exact sizeOf_lt_of_mem_children ‹_›

end Node

end ArcLang
