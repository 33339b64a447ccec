import ArcLang.Tree

/-!
# How deeply a tree is nested

The levels of nesting that a tree takes: one for each expression, right operand of a binary
operator, operand of a unary operator, element of an array type, and body. Left operands, chains
of accesses and members of lists take none of their own.
-/

namespace ArcLang

namespace TypeName

/-- The levels of nesting that a type takes. -/
def need : TypeName → Nat
  | array _ element _ => element.need + 1
  | _ => 0

end TypeName

namespace Expr

mutual

/-- The levels inside an expression; the expression itself takes one more. -/
def depth : Expr → Nat
  | char .. | string .. | number .. | boolean .. | name .. => 0
  | array _ elements => needEach elements
  | member _ target _ => target.depth
  | index _ target place => max target.depth (place.depth + 1)
  | call _ callee arguments => max callee.depth (needEach arguments)
  | binary _ _ left right => max left.depth (right.depth + 1)
  | unary _ _ operand => operand.depth + 1
  | paren _ inner => inner.depth + 1
  | assign _ target _ value => max target.depth (value.depth + 1)

/-- The most levels that an expression of a list takes. -/
def needEach : List Expr → Nat
  | [] => 0
  | e :: more => max (e.depth + 1) (needEach more)

end

/-- The levels of nesting that an expression takes. -/
def need (e : Expr) : Nat := e.depth + 1

theorem needEach_le_iff {es : List Expr} {n : Nat} :
    needEach es ≤ n ↔ ∀ e ∈ es, e.need ≤ n := by
  induction es with
  | nil => simp [needEach]
  | cons e es ih =>
    rw [List.forall_mem_cons, ← ih]
    exact Nat.max_le

end Expr

mutual

/-- The levels of nesting that a statement takes. -/
def Stmt.need : Stmt → Nat
  | .breakLoop _ => 0
  | .ret _ value => (value.map Expr.need).getD 0
  | .loop _ condition body => max condition.need body.need
  | .branch _ condition consequent none => max condition.need consequent.need
  | .branch _ condition consequent (some alternate) =>
    max (max condition.need consequent.need) alternate.need
  | .expression _ e => e.need

/-- The levels of nesting that a body takes: one more than what is in it. -/
def Block.need : Block → Nat
  | .mk _ statements => Stmt.needEach statements + 1

/-- The most levels that a statement of a list takes. -/
def Stmt.needEach : List Stmt → Nat
  | [] => 0
  | s :: more => max s.need (Stmt.needEach more)

end

theorem Stmt.needEach_le_iff {ss : List Stmt} {n : Nat} :
    Stmt.needEach ss ≤ n ↔ ∀ s ∈ ss, s.need ≤ n := by
  induction ss with
  | nil => simp [Stmt.needEach]
  | cons s ss ih =>
    rw [List.forall_mem_cons, ← ih]
    exact Nat.max_le

/-- The largest need of any member. -/
def needMost (need : α → Nat) (as : List α) : Nat := as.foldr (fun a n => max (need a) n) 0

theorem needMost_le_iff {need : α → Nat} {as : List α} {n : Nat} :
    needMost need as ≤ n ↔ ∀ a ∈ as, need a ≤ n := by
  induction as with
  | nil => simp [needMost]
  | cons a as ih =>
    rw [List.forall_mem_cons, ← ih]
    exact Nat.max_le

namespace Function

/-- The levels of nesting that a function takes. -/
def need (f : Function) : Nat :=
  max (needMost (·.type.need) f.parameters) (max ((f.result.map TypeName.need).getD 0) f.body.need)

end Function

namespace Struct

/-- The levels of nesting that a struct takes. -/
def need (s : Struct) : Nat := needMost (·.type.need) s.fields

end Struct

namespace Item

/-- The levels of nesting that an item takes. -/
def need : Item → Nat
  | function f => f.need
  | struct s => s.need
  | statement s => s.need

end Item

namespace Program

/-- The levels of nesting that a program takes. -/
def need (p : Program) : Nat := needMost Item.need p.items

end Program

end ArcLang
