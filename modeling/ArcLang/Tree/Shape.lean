import ArcLang.Tree

/-!
# Shapes

Two trees have the same shape when they differ in spans alone. `erased` puts one fixed span into
every node, and `sameShape` decides whether that makes two trees equal.

* `Program.sameShape_iff`: it does so exactly.
-/

namespace ArcLang

/-- The span of every node in an erased tree. -/
def Span.blank : Span := .point (.start "")

namespace TypeName

/-- The type without its spans. -/
def erased : TypeName → TypeName
  | bool _ => bool .blank
  | float _ => float .blank
  | int _ signed width => int .blank signed width
  | array _ element length => array .blank element.erased length
  | named _ name => named .blank name

/-- The types differ in spans alone. -/
def sameShape : TypeName → TypeName → Bool
  | bool _, bool _ | float _, float _ => true
  | int _ signed width, int _ signed' width' => signed = signed' && width = width'
  | array _ element length, array _ element' length' =>
    element.sameShape element' && length = length'
  | named _ name, named _ name' => name = name'
  | _, _ => false

end TypeName

namespace Expr

mutual

/-- The expression without the spans in it. -/
def erased : Expr → Expr
  | char _ text => char .blank text
  | string _ text => string .blank text
  | number _ text radix => number .blank text radix
  | boolean _ value => boolean .blank value
  | array _ elements => array .blank (erasedEach elements)
  | name _ text => name .blank text
  | member _ target text => member .blank target.erased text
  | index _ target place => index .blank target.erased place.erased
  | call _ callee arguments => call .blank callee.erased (erasedEach arguments)
  | binary _ op left right => binary .blank op left.erased right.erased
  | unary _ op operand => unary .blank op operand.erased
  | paren _ inner => paren .blank inner.erased
  | assign _ target op value => assign .blank target.erased op value.erased

/-- The expressions without the spans in them. -/
def erasedEach : List Expr → List Expr
  | [] => []
  | e :: more => e.erased :: erasedEach more

end

mutual

/-- The expressions differ in spans alone. -/
def sameShape : Expr → Expr → Bool
  | char _ text, char _ text' | string _ text, string _ text' | name _ text, name _ text' =>
    text = text'
  | number _ text radix, number _ text' radix' => text = text' && radix = radix'
  | boolean _ value, boolean _ value' => value = value'
  | array _ elements, array _ elements' => sameShapes elements elements'
  | member _ target text, member _ target' text' => target.sameShape target' && text = text'
  | index _ target place, index _ target' place' =>
    target.sameShape target' && place.sameShape place'
  | call _ callee arguments, call _ callee' arguments' =>
    callee.sameShape callee' && sameShapes arguments arguments'
  | binary _ op left right, binary _ op' left' right' =>
    op = op' && left.sameShape left' && right.sameShape right'
  | unary _ op operand, unary _ op' operand' => op = op' && operand.sameShape operand'
  | paren _ inner, paren _ inner' => inner.sameShape inner'
  | assign _ target op value, assign _ target' op' value' =>
    target.sameShape target' && op = op' && value.sameShape value'
  | _, _ => false

/-- The expressions of two lists differ in spans alone, one by one. -/
def sameShapes : List Expr → List Expr → Bool
  | [], [] => true
  | e :: more, e' :: more' => e.sameShape e' && sameShapes more more'
  | _, _ => false

end

end Expr

mutual

/-- The statement without the spans in it. -/
def Stmt.erased : Stmt → Stmt
  | .breakLoop _ => .breakLoop .blank
  | .ret _ value => .ret .blank (value.map Expr.erased)
  | .loop _ condition body => .loop .blank condition.erased body.erased
  | .branch _ condition consequent none =>
    .branch .blank condition.erased consequent.erased none
  | .branch _ condition consequent (some alternate) =>
    .branch .blank condition.erased consequent.erased (some alternate.erased)
  | .expression _ expr => .expression .blank expr.erased

/-- The body without the spans in it. -/
def Block.erased : Block → Block
  | .mk _ statements => .mk .blank (Stmt.erasedEach statements)

/-- The statements without the spans in them. -/
def Stmt.erasedEach : List Stmt → List Stmt
  | [] => []
  | s :: more => s.erased :: Stmt.erasedEach more

end

mutual

/-- The statements differ in spans alone. -/
def Stmt.sameShape : Stmt → Stmt → Bool
  | .breakLoop _, .breakLoop _ => true
  | .ret _ none, .ret _ none => true
  | .ret _ (some value), .ret _ (some value') => value.sameShape value'
  | .loop _ condition body, .loop _ condition' body' =>
    condition.sameShape condition' && body.sameShape body'
  | .branch _ condition consequent none, .branch _ condition' consequent' none =>
    condition.sameShape condition' && consequent.sameShape consequent'
  | .branch _ condition consequent (some alternate),
    .branch _ condition' consequent' (some alternate') =>
    condition.sameShape condition' && consequent.sameShape consequent' &&
      alternate.sameShape alternate'
  | .expression _ expr, .expression _ expr' => expr.sameShape expr'
  | _, _ => false

/-- The bodies differ in spans alone. -/
def Block.sameShape : Block → Block → Bool
  | .mk _ statements, .mk _ statements' => Stmt.sameShapes statements statements'

/-- The statements of two lists differ in spans alone, one by one. -/
def Stmt.sameShapes : List Stmt → List Stmt → Bool
  | [], [] => true
  | s :: more, s' :: more' => s.sameShape s' && Stmt.sameShapes more more'
  | _, _ => false

end

namespace Binding

/-- The name and its type without the spans in them. -/
def erased (b : Binding) : Binding := ⟨.blank, b.name, b.type.erased⟩

/-- The names are the same, and the types differ in spans alone. -/
def sameShape (a b : Binding) : Bool := a.name = b.name && a.type.sameShape b.type

end Binding

/-- Two lists of one length whose members agree in order. -/
def agreeing (same : α → β → Bool) : List α → List β → Bool
  | [], [] => true
  | a :: more, b :: more' => same a b && agreeing same more more'
  | _, _ => false

namespace Function

/-- The function without the spans in it. -/
def erased (f : Function) : Function :=
  ⟨.blank, f.name, f.parameters.map Binding.erased, f.result.map TypeName.erased, f.body.erased⟩

/-- The functions differ in spans alone. -/
def sameShape (f g : Function) : Bool :=
  f.name = g.name && agreeing Binding.sameShape f.parameters g.parameters &&
    agreeing TypeName.sameShape f.result.toList g.result.toList && f.body.sameShape g.body

end Function

namespace Struct

/-- The struct without the spans in it. -/
def erased (s : Struct) : Struct := ⟨.blank, s.name, s.fields.map Binding.erased⟩

/-- The structs differ in spans alone. -/
def sameShape (s t : Struct) : Bool :=
  s.name = t.name && agreeing Binding.sameShape s.fields t.fields

end Struct

namespace Item

/-- The item without the spans in it. -/
def erased : Item → Item
  | function f => function f.erased
  | struct s => struct s.erased
  | statement s => statement s.erased

/-- The items differ in spans alone. -/
def sameShape : Item → Item → Bool
  | function f, function g => f.sameShape g
  | struct s, struct t => s.sameShape t
  | statement s, statement t => s.sameShape t
  | _, _ => false

end Item

namespace Program

/-- The program without the spans in it. -/
def erased (p : Program) : Program := ⟨.blank, p.items.map Item.erased⟩

/-- The programs differ in spans alone. -/
def sameShape (p q : Program) : Bool := agreeing Item.sameShape p.items q.items

end Program

theorem agreeing_iff {same : α → α → Bool} {erase : α → α} {as bs : List α}
    (h : ∀ a ∈ as, ∀ b, same a b = true ↔ erase a = erase b) :
    agreeing same as bs = true ↔ as.map erase = bs.map erase := by
  induction as generalizing bs with
  | nil => cases bs <;> simp [agreeing]
  | cons a as ih =>
    cases bs with
    | nil => simp [agreeing]
    | cons b bs =>
      simp only [agreeing, Bool.and_eq_true, List.map_cons, List.cons.injEq,
        h a List.mem_cons_self, ih fun a ha => h a (List.mem_cons_of_mem _ ha)]

theorem TypeName.sameShape_iff (a b : TypeName) :
    a.sameShape b = true ↔ a.erased = b.erased := by
  induction a generalizing b with
  | array span element length ih => cases b <;> simp [sameShape, erased, ih]
  | _ => cases b <;> simp [sameShape, erased]

mutual

theorem Expr.sameShape_iff (a b : Expr) : a.sameShape b = true ↔ a.erased = b.erased := by
  cases a <;> cases b <;>
    simp only [Expr.sameShape, Expr.erased, Expr.sameShape_iff, Expr.sameShapes_iff,
      Bool.and_eq_true, decide_eq_true_eq, Bool.false_eq_true, reduceCtorEq, Expr.char.injEq,
      Expr.string.injEq, Expr.number.injEq, Expr.boolean.injEq, Expr.array.injEq,
      Expr.name.injEq, Expr.member.injEq, Expr.index.injEq, Expr.call.injEq, Expr.binary.injEq,
      Expr.unary.injEq, Expr.paren.injEq, Expr.assign.injEq, true_and, and_assoc]

theorem Expr.sameShapes_iff (as bs : List Expr) :
    Expr.sameShapes as bs = true ↔ Expr.erasedEach as = Expr.erasedEach bs := by
  cases as <;> cases bs <;>
    simp [Expr.sameShapes, Expr.erasedEach, Expr.sameShape_iff, Expr.sameShapes_iff]

end

mutual

theorem Stmt.sameShape_iff (a b : Stmt) : a.sameShape b = true ↔ a.erased = b.erased := by
  rcases a with _ | ⟨_, _ | _⟩ | _ | ⟨_, _, _, _ | _⟩ | _ <;>
    rcases b with _ | ⟨_, _ | _⟩ | _ | ⟨_, _, _, _ | _⟩ | _ <;>
    simp [Stmt.sameShape, Stmt.erased, Expr.sameShape_iff, Block.sameShape_iff, and_assoc]

theorem Block.sameShape_iff (a b : Block) : a.sameShape b = true ↔ a.erased = b.erased := by
  cases a; cases b
  simp [Block.sameShape, Block.erased, Stmt.sameShapes_iff]

theorem Stmt.sameShapes_iff (as bs : List Stmt) :
    Stmt.sameShapes as bs = true ↔ Stmt.erasedEach as = Stmt.erasedEach bs := by
  cases as <;> cases bs <;>
    simp [Stmt.sameShapes, Stmt.erasedEach, Stmt.sameShape_iff, Stmt.sameShapes_iff]

end

theorem Binding.sameShape_iff (a b : Binding) : a.sameShape b = true ↔ a.erased = b.erased := by
  simp [Binding.sameShape, Binding.erased, TypeName.sameShape_iff]

theorem Item.sameShape_iff (a b : Item) : a.sameShape b = true ↔ a.erased = b.erased := by
  cases a <;> cases b <;>
    simp [Item.sameShape, Item.erased, Function.sameShape, Function.erased, Struct.sameShape,
      Struct.erased, Stmt.sameShape_iff, Block.sameShape_iff, and_assoc,
      agreeing_iff fun a _ b => Binding.sameShape_iff a b,
      agreeing_iff fun a _ b => TypeName.sameShape_iff a b]
  case function.function f g =>
    cases f.result <;> cases g.result <;> simp

/-- **Programs have the same shape exactly when they differ in spans alone.** -/
theorem Program.sameShape_iff (p q : Program) : p.sameShape q = true ↔ p.erased = q.erased := by
  simp [Program.sameShape, Program.erased, agreeing_iff fun a _ b => Item.sameShape_iff a b]

end ArcLang
