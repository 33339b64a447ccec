import ArcLang.Proofs.Nesting
import ArcLang.Proofs.Nodes

/-!
# Grouping by precedence

What a flat chain of operands and binary operators means. Operators are put behind the tree so far
one after the other (`Expr.graft`): each takes for its left operand the longest part at the end of
the tree in which every operator binds at least as tightly.

* `Expr.graft_join`: an operator that binds more tightly goes into the right operand.
* `Expr.FitsLeft`, `Expr.FitsRight`: what may stand to the left and to the right of an operator.
* `Node.Grouped`: the precedence table, as a condition on one node.
-/

namespace ArcLang

namespace Expr

/-- A binary operator between two operands. -/
def join (op : BinaryOp) (left right : Expr) : Expr :=
  binary (left.span.upTo right.span) op left right

/-- An expression with a binary operator and its right operand put behind it. -/
def graft (op : BinaryOp) (right : Expr) : Expr → Expr
  | binary span o l r =>
    if o.rank < op.rank then binary (span.upTo right.span) o l (graft op right r)
    else join op (binary span o l r) right
  | e => join op e right

/-- The expression may be the left operand of an operator: it is no assignment, and its own
operator binds at least as tightly. -/
def FitsLeft (op : BinaryOp) : Expr → Prop
  | binary _ o _ _ => op.rank ≤ o.rank
  | assign .. => False
  | _ => True

/-- The expression may be the right operand of an operator: it is no assignment, and its own
operator binds more tightly. -/
def FitsRight (op : BinaryOp) : Expr → Prop
  | binary _ o _ _ => op.rank < o.rank
  | assign .. => False
  | _ => True

/-- Neither an operator between operands nor an assignment. -/
def IsOperand : Expr → Prop
  | binary .. | assign .. => False
  | _ => True

/-- A primary expression with what trails it. -/
def IsTrailed : Expr → Prop
  | binary .. | assign .. | unary .. => False
  | _ => True

instance (op : BinaryOp) : DecidablePred (FitsLeft op) := fun e => by
  unfold FitsLeft; split <;> infer_instance

instance (op : BinaryOp) : DecidablePred (FitsRight op) := fun e => by
  unfold FitsRight; split <;> infer_instance

instance : DecidablePred IsOperand := fun e => by unfold IsOperand; split <;> infer_instance

instance : DecidablePred IsTrailed := fun e => by unfold IsTrailed; split <;> infer_instance

theorem span_graft (op : BinaryOp) (right e : Expr) :
    (graft op right e).span = e.span.upTo right.span := by
  cases e with
  | binary span o l r => unfold graft; split <;> rfl
  | _ => rfl

theorem graft_of_fitsLeft {op : BinaryOp} {e : Expr} (h : e.FitsLeft op) (right : Expr) :
    graft op right e = join op e right := by
  cases e with
  | binary span o l r => exact if_neg (Nat.not_lt.2 h)
  | _ => rfl

/-- **An operator that binds more tightly goes into the right operand.** -/
theorem graft_join {op o : BinaryOp} (h : op.rank < o.rank) (l r right : Expr) :
    graft o right (join op l r) = join op l (graft o right r) := by
  unfold join
  rw [graft, if_pos h, span_graft]
  rfl

theorem depth_join (op : BinaryOp) (l r : Expr) :
    (join op l r).depth = max l.depth (r.depth + 1) := by
  unfold join; rw [depth]

theorem IsTrailed.isOperand {e : Expr} (h : e.IsTrailed) : e.IsOperand := by
  cases e <;> trivial

theorem IsOperand.fitsLeft {e : Expr} (h : e.IsOperand) (op : BinaryOp) : e.FitsLeft op := by
  cases e <;> trivial

theorem IsOperand.fitsRight {e : Expr} (h : e.IsOperand) (op : BinaryOp) : e.FitsRight op := by
  cases e <;> trivial

end Expr

namespace Node

/-- An assignment is to a name, a member or an element. -/
def AssignsToPlace : Node → Prop
  | expression (.assign _ target _ _) => target.isAddressable = true
  | _ => True

/-- The operands of the node are grouped as the precedence table has it. -/
def Grouped : Node → Prop
  | expression (.binary _ op left right) => left.FitsLeft op ∧ right.FitsRight op
  | expression (.unary _ _ operand) => operand.IsOperand
  | expression (.member _ target _) | expression (.index _ target _)
  | expression (.call _ target _) => target.IsTrailed
  | expression (.assign _ target _ _) => target.isAddressable = true
  | _ => True

instance : DecidablePred Grouped := fun n => by unfold Grouped; split <;> infer_instance

theorem Grouped.assignsToPlace {n : Node} (h : n.Grouped) : n.AssignsToPlace := by
  unfold AssignsToPlace
  split
  · exact h
  · trivial

theorem throughout_expression {P : Node → Prop} {e : Expr} :
    (expression e).Throughout P ↔
      P (expression e) ∧ ∀ c ∈ expressionChildren e, (expression c).Throughout P := by
  rw [throughout_iff, children, List.forall_mem_map]

theorem Throughout.part {P : Node → Prop} {e c : Expr} (h : (expression e).Throughout P)
    (hc : c ∈ expressionChildren e) : (expression c).Throughout P :=
  h.child (List.mem_map_of_mem hc)

end Node

namespace Expr

/-! ## Expressions that assign to places -/

/-- Every assignment in the expression is to a place. -/
def Placed (e : Expr) : Prop := (Node.expression e).Throughout Node.AssignsToPlace

theorem placed_binary {span : Span} {op : BinaryOp} {l r : Expr} :
    (binary span op l r).Placed ↔ l.Placed ∧ r.Placed := by
  unfold Placed
  rw [Node.throughout_expression]
  simp [Node.expressionChildren, Node.AssignsToPlace]

theorem placed_assign {span : Span} {t v : Expr} {op : AssignOp} :
    (assign span t op v).Placed ↔ t.isAddressable = true ∧ t.Placed ∧ v.Placed := by
  unfold Placed
  rw [Node.throughout_expression]
  simp [Node.expressionChildren, Node.AssignsToPlace]

/-- Other expressions assign to places if their parts do. -/
theorem placed_of_children {e : Expr} (h : ∀ c ∈ Node.expressionChildren e, c.Placed)
    (he : Node.AssignsToPlace (.expression e)) : e.Placed :=
  Node.throughout_expression.2 ⟨he, h⟩

theorem Placed.of_mem {e c : Expr} (h : e.Placed) (hc : c ∈ Node.expressionChildren e) : c.Placed :=
  Node.Throughout.part h hc

theorem placed_graft {op : BinaryOp} {x : Expr} :
    {e : Expr} → (graft op x e).Placed ↔ e.Placed ∧ x.Placed
  | binary span o l r => by
    unfold graft
    split
    · rw [placed_binary, placed_graft, placed_binary, and_assoc]
    · exact placed_binary
  | char .. | string .. | number .. | boolean .. | array .. | name .. | member .. | index ..
  | call .. | unary .. | paren .. | assign .. => placed_binary

/-! ## Expressions that are grouped -/

/-- Everything in the expression is grouped as the precedence table has it. -/
def IsGrouped (e : Expr) : Prop := (Node.expression e).Throughout Node.Grouped

theorem isGrouped_binary {span : Span} {op : BinaryOp} {l r : Expr} :
    (binary span op l r).IsGrouped ↔
      (l.FitsLeft op ∧ r.FitsRight op) ∧ l.IsGrouped ∧ r.IsGrouped := by
  unfold IsGrouped
  rw [Node.throughout_expression]
  simp [Node.expressionChildren, Node.Grouped]

theorem isGrouped_of_children {e : Expr} (h : ∀ c ∈ Node.expressionChildren e, c.IsGrouped)
    (he : Node.Grouped (.expression e)) : e.IsGrouped :=
  Node.throughout_expression.2 ⟨he, h⟩

/-- Behind what may stand to the right of an operator, a tighter one can be put. -/
theorem fitsRight_graft {o op : BinaryOp} {x e : Expr} (h : o.rank < op.rank)
    (he : e.FitsRight o) : (graft op x e).FitsRight o := by
  cases e with
  | binary span o' l r =>
    unfold graft
    split
    · exact he
    · exact h
  | _ => exact h

/-- **An operator and an operand behind a grouped tree** leave it grouped. -/
theorem isGrouped_graft {op : BinaryOp} {x : Expr} (hx : x.IsOperand) (hxg : x.IsGrouped) :
    {e : Expr} → (∀ {span t o v}, e ≠ assign span t o v) → e.IsGrouped →
      (graft op x e).IsGrouped
  | binary span o l r, _, he => by
    have whole := he
    obtain ⟨⟨hl, hr⟩, hlg, hrg⟩ := isGrouped_binary.1 he
    unfold graft
    split
    · next hlt =>
      -- the operand goes into the right side, which is no assignment
      have hra : ∀ {span t o v}, r ≠ assign span t o v := by rintro _ _ _ _ rfl; exact hr
      have hgraft : (graft op x r).IsGrouped := isGrouped_graft hx hxg hra hrg
      exact isGrouped_binary.2 ⟨⟨hl, fitsRight_graft hlt hr⟩, hlg, hgraft⟩
    · next hle =>
      exact isGrouped_binary.2 ⟨⟨Nat.le_of_not_lt hle, hx.fitsRight op⟩, whole, hxg⟩
  | assign .., ha, _ => absurd rfl ha
  | char .., _, he | string .., _, he | number .., _, he | boolean .., _, he | array .., _, he
  | name .., _, he | member .., _, he | index .., _, he | call .., _, he | unary .., _, he
  | paren .., _, he => isGrouped_binary.2 ⟨⟨trivial, hx.fitsRight op⟩, he, hxg⟩

end Expr

end ArcLang
