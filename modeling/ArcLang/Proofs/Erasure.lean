import ArcLang.Proofs.Grouping
import ArcLang.Tree.Shape

/-!
# Trees without their spans

What does not depend on spans is the same for trees of the same shape.

* `Item.need_erased`: how deeply a tree is nested.
* `Node.throughout_erased`, `Node.assignsToPlace_erased`: whether all its assignments are to places.
-/

namespace ArcLang

namespace Expr

theorem erasedEach_eq (es : List Expr) : erasedEach es = es.map erased := by
  induction es with
  | nil => rfl
  | cons e es ih => rw [erasedEach, ih]; rfl

mutual

theorem depth_erased : (e : Expr) → e.erased.depth = e.depth
  | char .. | string .. | number .. | boolean .. | name .. => rfl
  | array _ elements => needEach_erased elements
  | member _ target _ => target.depth_erased
  | index _ target place => by rw [erased, depth, target.depth_erased, place.depth_erased, depth]
  | call _ callee arguments => by
    rw [erased, depth, callee.depth_erased, needEach_erased arguments, depth]
  | binary _ op left right => by rw [erased, depth, left.depth_erased, right.depth_erased, depth]
  | unary _ op operand => by rw [erased, depth, operand.depth_erased, depth]
  | paren _ inner => by rw [erased, depth, inner.depth_erased, depth]
  | assign _ target op value => by
    rw [erased, depth, target.depth_erased, value.depth_erased, depth]

theorem needEach_erased : (es : List Expr) → needEach (erasedEach es) = needEach es
  | [] => rfl
  | e :: more => by rw [erasedEach, needEach, e.depth_erased, needEach_erased more, needEach]

end

theorem need_erased (e : Expr) : e.erased.need = e.need := by unfold need; rw [e.depth_erased]

end Expr

theorem TypeName.need_erased (t : TypeName) : t.erased.need = t.need := by
  induction t with
  | array span element length ih => rw [erased, need, ih, need]
  | _ => rfl

theorem Stmt.erasedEach_eq (ss : List Stmt) : Stmt.erasedEach ss = ss.map Stmt.erased := by
  induction ss with
  | nil => rfl
  | cons s ss ih => rw [Stmt.erasedEach, ih]; rfl

mutual

theorem Stmt.need_erased : (s : Stmt) → s.erased.need = s.need
  | .breakLoop _ | .ret _ none => rfl
  | .ret _ (some e) => e.need_erased
  | .loop _ condition body => by
    rw [Stmt.erased, Stmt.need, condition.need_erased, body.need_erased, Stmt.need]
  | .branch _ condition consequent none => by
    rw [Stmt.erased, Stmt.need, condition.need_erased, consequent.need_erased, Stmt.need]
  | .branch _ condition consequent (some alternate) => by
    rw [Stmt.erased, Stmt.need, condition.need_erased, consequent.need_erased,
      alternate.need_erased, Stmt.need]
  | .expression _ e => e.need_erased

theorem Block.need_erased : (b : Block) → b.erased.need = b.need
  | .mk _ statements => by
    rw [Block.erased, Block.need, Stmt.needEach_erased statements, Block.need]

theorem Stmt.needEach_erased : (ss : List Stmt) →
    Stmt.needEach (Stmt.erasedEach ss) = Stmt.needEach ss
  | [] => rfl
  | s :: more => by
    rw [Stmt.erasedEach, Stmt.needEach, s.need_erased, Stmt.needEach_erased more, Stmt.needEach]

end

theorem needMost_map {α β : Type} {need : β → Nat} {need' : α → Nat} {f : α → β}
    (h : ∀ a, need (f a) = need' a) (as : List α) :
    needMost need (as.map f) = needMost need' as := by
  unfold needMost
  rw [List.foldr_map]
  simp only [h]

/-- **Spans do not matter to nesting.** -/
theorem Item.need_erased (i : Item) : i.erased.need = i.need := by
  have hbindings : ∀ bs : List Binding, needMost (·.type.need) (bs.map Binding.erased) =
      needMost (·.type.need) bs := needMost_map fun b => b.type.need_erased
  cases i with
  | function f =>
    have hresult : ((f.result.map TypeName.erased).map TypeName.need).getD 0 =
        (f.result.map TypeName.need).getD 0 := by
      cases f.result with
      | none => rfl
      | some t => exact t.need_erased
    show max _ (max _ _) = max _ (max _ _)
    unfold Function.erased
    dsimp only
    rw [hbindings, hresult, f.body.need_erased]
  | struct s => exact hbindings s.fields
  | statement s => exact s.need_erased

namespace Node

/-- The node without the spans in it. -/
def erased : Node → Node
  | program p => program p.erased
  | function f => function f.erased
  | parameter b => parameter b.erased
  | struct s => struct s.erased
  | field b => field b.erased
  | block b => block b.erased
  | statement s => statement s.erased
  | expression e => expression e.erased
  | typeName t => typeName t.erased

theorem expressionChildren_erased (e : Expr) :
    expressionChildren e.erased = (expressionChildren e).map Expr.erased := by
  cases e with
  | array span elements => exact Expr.erasedEach_eq elements
  | call span callee arguments =>
    rw [Expr.erased, expressionChildren, Expr.erasedEach_eq, expressionChildren, List.map_cons]
  | _ => rfl

theorem statementChildren_erased (s : Stmt) :
    statementChildren s.erased = (statementChildren s).map erased := by
  rcases s with _ | ⟨_, _ | _⟩ | _ | ⟨_, _, _, _ | _⟩ | _ <;> rfl

theorem ofItem_erased (i : Item) : ofItem i.erased = (ofItem i).erased := by cases i <;> rfl

theorem children_erased (n : Node) : n.erased.children = n.children.map erased := by
  cases n with
  | program p =>
    show ((p.items.map Item.erased).map ofItem) = (p.items.map ofItem).map erased
    rw [List.map_map, List.map_map]
    exact List.map_congr_left fun i _ => ofItem_erased i
  | function f =>
    show (f.parameters.map Binding.erased).map parameter ++
        (f.result.map TypeName.erased).toList.map typeName ++ [block f.body.erased] =
      (f.parameters.map parameter ++ f.result.toList.map typeName ++ [block f.body]).map erased
    rw [List.map_append, List.map_append, List.map_map, List.map_map]
    cases f.result <;> rfl
  | struct s =>
    show (s.fields.map Binding.erased).map field = (s.fields.map field).map erased
    rw [List.map_map, List.map_map]
    rfl
  | block b =>
    obtain ⟨span, statements⟩ := b
    show (Stmt.erasedEach statements).map statement = (statements.map statement).map erased
    rw [Stmt.erasedEach_eq, List.map_map, List.map_map]
    rfl
  | statement s => exact statementChildren_erased s
  | expression e =>
    show (expressionChildren e.erased).map expression =
      ((expressionChildren e).map expression).map erased
    rw [expressionChildren_erased, List.map_map, List.map_map]
    rfl
  | typeName t => cases t <;> rfl
  | _ => rfl

theorem assignsToPlace_erased {n : Node} : n.erased.AssignsToPlace ↔ n.AssignsToPlace := by
  cases n with
  | expression e =>
    cases e with
    | assign span target op value =>
      show target.erased.isAddressable = true ↔ target.isAddressable = true
      cases target <;> rfl
    | _ => rfl
  | _ => rfl

/-- What holds of a node exactly if it holds without spans, does so throughout a tree. -/
theorem throughout_erased {P : Node → Prop} (hP : ∀ n : Node, P n.erased ↔ P n) (n : Node) :
    n.erased.Throughout P ↔ n.Throughout P := by
  induction hn : sizeOf n using Nat.strongRecOn generalizing n with
  | ind size ih =>
    rw [throughout_iff, throughout_iff, hP, children_erased, List.forall_mem_map]
    refine and_congr_right fun _ => forall₂_congr fun c hc => ?_
    exact ih (sizeOf c) (hn ▸ sizeOf_lt_of_mem_children hc) c rfl

end Node

end ArcLang
