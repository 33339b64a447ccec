import ArcLang.Proofs.Derivations

/-!
# Parts of a derivation

A part of a program is derived on its own: the tokens that it comes from stand together among those
of the program, and it is nested no more deeply.

* `Node.need_le_of_mem`: a part takes no more levels of nesting than the whole.
* `Grammar.Chain.parts_of_operands`: each operator of a chain comes with the chain of its operands.
* `Grammar.Program.parts`: every definition, statement and expression of a program is what some
  tokens that stand together denote.
-/

namespace ArcLang

/-! ## Levels of nesting -/

namespace Node

/-- The levels of nesting that a node takes. -/
def need : Node → Nat
  | program p => p.need
  | function f => f.need
  | parameter b | field b => b.type.need
  | struct s => s.need
  | block b => b.need
  | statement s => s.need
  | expression e => e.need
  | typeName t => t.need

theorem need_ofItem (i : Item) : (ofItem i).need = i.need := by cases i <;> rfl

theorem need_le_of_mem_expressionChildren {e c : Expr} (h : c ∈ expressionChildren e) :
    c.need ≤ e.need := by
  have hlist {es : List Expr} (h : c ∈ es) : c.depth + 1 ≤ Expr.needEach es :=
    Expr.needEach_le_iff.1 le_rfl c h
  unfold Expr.need
  cases e with
  | array span elements =>
    have hle := hlist (show c ∈ elements from h)
    rw [Expr.depth]
    omega
  | call span callee arguments =>
    rw [Expr.depth]
    rcases List.mem_cons.1 h with rfl | h
    · omega
    · have hle := hlist h
      omega
  | char | string | number | boolean | name => exact absurd h List.not_mem_nil
  | _ =>
    simp only [expressionChildren, List.mem_cons, List.not_mem_nil, or_false] at h
    rw [Expr.depth]
    grind

theorem need_le_of_mem_statementChildren {s : Stmt} {c : Node} (h : c ∈ statementChildren s) :
    c.need ≤ s.need := by
  cases s with
  | breakLoop => exact absurd h List.not_mem_nil
  | ret span value =>
    cases value with
    | none => exact absurd h List.not_mem_nil
    | some e => exact (congrArg need (List.mem_singleton.1 h)).le
  | loop span condition body =>
    have h : c = expression condition ∨ c = block body := by simpa [statementChildren] using h
    rw [Stmt.need]
    rcases h with rfl | rfl
    · exact le_max_left _ _
    · exact le_max_right _ _
  | branch span condition consequent alternate =>
    cases alternate with
    | none =>
      have h : c = expression condition ∨ c = block consequent := by
        simpa [statementChildren] using h
      rw [Stmt.need]
      rcases h with rfl | rfl
      · exact le_max_left _ _
      · exact le_max_right _ _
    | some alternate =>
      have h : c = expression condition ∨ c = block consequent ∨ c = block alternate := by
        simpa [statementChildren] using h
      rw [Stmt.need]
      rcases h with rfl | rfl | rfl
      · exact (le_max_left _ _).trans (le_max_left _ _)
      · exact (le_max_right _ _).trans (le_max_left _ _)
      · exact le_max_right _ _
  | expression span e => exact (congrArg need (List.mem_singleton.1 h)).le

theorem need_le_of_mem_children {n c : Node} (h : c ∈ n.children) : c.need ≤ n.need := by
  have hbindings {bs : List Binding} {b : Binding} (h : b ∈ bs) :
      b.type.need ≤ needMost (·.type.need) bs :=
    needMost_le_iff.1 (le_refl (needMost (·.type.need) bs)) b h
  cases n with
  | program p =>
    obtain ⟨i, hi, rfl⟩ := List.mem_map.1 h
    rw [need_ofItem]
    exact needMost_le_iff.1 (le_refl (needMost Item.need p.items)) i hi
  | function f =>
    show c.need ≤ max _ (max _ _)
    simp only [children, List.mem_append, List.mem_map, Option.mem_toList,
      List.mem_singleton] at h
    rcases h with (⟨b, hb, rfl⟩ | ⟨t, ht, rfl⟩) | rfl
    · exact (hbindings hb).trans (le_max_left _ _)
    · rw [ht]
      exact (le_max_left _ _).trans (le_max_right _ _)
    · exact (le_max_right _ _).trans (le_max_right _ _)
  | struct s =>
    obtain ⟨b, hb, rfl⟩ := List.mem_map.1 h
    exact hbindings hb
  | parameter b | field b => exact (congrArg need (List.mem_singleton.1 h)).le
  | block b =>
    obtain ⟨span, statements⟩ := b
    obtain ⟨s, hs, rfl⟩ := List.mem_map.1 h
    exact (Stmt.needEach_le_iff.1 le_rfl s hs).trans (Nat.le_succ _)
  | statement s => exact need_le_of_mem_statementChildren h
  | expression e =>
    obtain ⟨e', he, rfl⟩ := List.mem_map.1 h
    exact need_le_of_mem_expressionChildren he
  | typeName t =>
    cases t with
    | array span element length =>
      rw [List.mem_singleton.1 h]
      exact Nat.le_succ element.need
    | _ => exact absurd h List.not_mem_nil

/-- **A part takes no more levels of nesting than the whole.** -/
theorem need_le_of_mem {n m : Node} (h : m ∈ n.nodes) : m.need ≤ n.need :=
  throughout_of_inherited (P := fun m => m.need ≤ n.need)
    (fun _ hle _ hc => (need_le_of_mem_children hc).trans hle) le_rfl m h

end Node

/-! ## Derivations of parts -/

/-- A definition, a statement or an expression is what a derivation denotes, and the tokens that are
derived stand together among the given ones. -/
def Node.Derived (ts : List Token) : Node → Prop
  | .function f =>
    ∃ d : Grammar.Item, d.tree = .function f ∧ d.tokens <:+: ts ∧ Grammar.Resolve d.lengths
  | .struct s =>
    ∃ d : Grammar.Item, d.tree = .struct s ∧ d.tokens <:+: ts ∧ Grammar.Resolve d.lengths
  | .statement s => ∃ d : Grammar.Statement, d.tree = s ∧ d.tokens <:+: ts
  | .expression e => ∃ d : Grammar.Expr, d.tree = e ∧ d.tokens <:+: ts
  | _ => True

namespace Grammar

variable {ts : List Token}

/-- Each operand of the chain has the property. -/
def Chain.Each (P : Operand → Prop) : Chain → Prop
  | .single operand => P operand
  | .more front _ _ operand => front.Each P ∧ P operand

theorem Chain.each_append {P : Operand → Prop} {front : Chain} {op : BinaryOp}
    {sign : Sign op.symbol} : {back : Chain} →
      ((front.append op sign back).Each P ↔ front.Each P ∧ back.Each P)
  | .single _ => Iff.rfl
  | .more back _ _ _ => by
    rw [Chain.append, Chain.Each, each_append, Chain.Each, and_assoc]

theorem Expr.parts_of_children (e : Expr) (h : e.tokens <:+: ts)
    (hchildren : ∀ c ∈ Node.expressionChildren e.tree,
      (Node.expression c).Throughout (Node.Derived ts)) :
    (Node.expression e.tree).Throughout (Node.Derived ts) :=
  Node.throughout_iff.2 ⟨⟨e, rfl, h⟩, List.forall_mem_map.2 hchildren⟩

/-- An operand is an expression of its own. -/
theorem Operand.parts_of_children (e : Operand) (h : e.tokens <:+: ts)
    (hchildren : ∀ c ∈ Node.expressionChildren e.tree,
      (Node.expression c).Throughout (Node.Derived ts)) :
    (Node.expression e.tree).Throughout (Node.Derived ts) :=
  Expr.parts_of_children (.plain (.single e)) h hchildren

theorem Primary.parts_of_children {e : Primary} (h : e.tokens <:+: ts)
    (hchildren : ∀ c ∈ Node.expressionChildren e.tree,
      (Node.expression c).Throughout (Node.Derived ts)) :
    (Node.expression e.tree).Throughout (Node.Derived ts) :=
  Operand.parts_of_children (.trailed (.primary e)) h hchildren

theorem Statement.parts_of_children (s : Statement) (h : s.tokens <:+: ts)
    (hchildren : ∀ c ∈ Node.statementChildren s.tree, c.Throughout (Node.Derived ts)) :
    (Node.statement s.tree).Throughout (Node.Derived ts) :=
  Node.throughout_iff.2 ⟨⟨s, rfl, h⟩, hchildren⟩

/-- If the tokens of the operand stand together among the given ones, then so do those of all parts
of it. -/
def Operand.HasParts (ts : List Token) (operand : Operand) : Prop :=
  operand.tokens <:+: ts → (Node.expression operand.tree).Throughout (Node.Derived ts)

/-- **The parts of a chain** are those of its operands, and what each operator has around it: the
grouping splits a chain into chains. -/
theorem Chain.parts_of_operands {c : Chain} (h : c.Each (Operand.HasParts ts))
    (hts : c.tokens <:+: ts) : (Node.expression c.tree).Throughout (Node.Derived ts) := by
  induction c using Chain.induction with
  | single operand => exact h hts
  | append l op sign r hl hr hfits hbinds =>
    obtain ⟨hleft, hright⟩ := Chain.each_append.1 h
    have htree := Chain.tree_append sign hfits hbinds
    have htokens := Chain.tokens_append l op sign r
    have hinl : l.tokens <:+: ts :=
      .trans ⟨[], sign.1 :: r.tokens, htokens.symm⟩ hts
    have hinr : r.tokens <:+: ts := by
      refine .trans ⟨l.tokens ++ [sign.1], [], ?_⟩ hts
      rw [htokens]
      simp
    refine Expr.parts_of_children (.plain (l.append op sign r)) hts ?_
    rw [Expr.tree, htree]
    exact List.forall_mem_cons.2 ⟨hl hleft hinl, List.forall_mem_singleton.2 (hr hright hinr)⟩

mutual

/-- **The parts of an expression are derived.** -/
theorem Expr.parts : (e : Expr) → e.tokens <:+: ts →
    (Node.expression e.tree).Throughout (Node.Derived ts)
  | .plain operand, h => Chain.parts_of_operands operand.operands_parts h
  | .assign target op sign value, h => by
    have htarget : target.tokens <:+: ts := .trans ⟨[], sign.1 :: value.tokens, rfl⟩ h
    have hvalue : value.tokens <:+: ts :=
      .trans ⟨target.tokens ++ [sign.1], [], by simp [Expr.tokens]⟩ h
    refine Expr.parts_of_children (.assign target op sign value) h ?_
    exact List.forall_mem_cons.2 ⟨Chain.parts_of_operands target.operands_parts htarget,
      List.forall_mem_singleton.2 (value.parts hvalue)⟩

theorem Chain.operands_parts : (c : Chain) → c.Each (Operand.HasParts ts)
  | .single operand => fun h => operand.parts h
  | .more front _ _ operand => ⟨front.operands_parts, fun h => operand.parts h⟩

theorem Operand.parts : (e : Operand) → e.tokens <:+: ts →
    (Node.expression e.tree).Throughout (Node.Derived ts)
  | .unary op sign operand, h => by
    have hoperand : operand.tokens <:+: ts := .trans ⟨[sign.1], [], by simp [Operand.tokens]⟩ h
    refine Operand.parts_of_children (.unary op sign operand) h ?_
    exact List.forall_mem_singleton.2 (operand.parts hoperand)
  | .trailed e, h => e.parts h

theorem Trailed.parts : (e : Trailed) → e.tokens <:+: ts →
    (Node.expression e.tree).Throughout (Node.Derived ts)
  | .primary e, h => e.parts h
  | .member target dot name, h => by
    have htarget : target.tokens <:+: ts := .trans ⟨[], [dot.1, name.1], rfl⟩ h
    refine Operand.parts_of_children (.trailed (.member target dot name)) h ?_
    exact List.forall_mem_singleton.2 (target.parts htarget)
  | .index target opener place closer, h => by
    have htarget : target.tokens <:+: ts :=
      .trans ⟨[], opener.1 :: place.tokens ++ [closer.1], by simp [Trailed.tokens]⟩ h
    have hplace : place.tokens <:+: ts :=
      .trans ⟨target.tokens ++ [opener.1], [closer.1], by simp [Trailed.tokens]⟩ h
    refine Operand.parts_of_children (.trailed (.index target opener place closer)) h ?_
    exact List.forall_mem_cons.2
      ⟨target.parts htarget, List.forall_mem_singleton.2 (place.parts hplace)⟩
  | .call callee opener arguments closer, h => by
    have hcallee : callee.tokens <:+: ts :=
      .trans ⟨[], opener.1 :: elementsTokens arguments ++ [closer.1], by simp [Trailed.tokens]⟩ h
    have harguments : elementsTokens arguments <:+: ts :=
      .trans ⟨callee.tokens ++ [opener.1], [closer.1], by simp [Trailed.tokens]⟩ h
    refine Operand.parts_of_children (.trailed (.call callee opener arguments closer)) h ?_
    exact List.forall_mem_cons.2 ⟨callee.parts hcallee, elements_parts arguments harguments⟩

theorem Primary.parts : (e : Primary) → e.tokens <:+: ts →
    (Node.expression e.tree).Throughout (Node.Derived ts)
  | .number _, h | .char _, h | .string _, h | .boolean _ _, h | .name _, h =>
    Primary.parts_of_children h (List.forall_mem_nil _)
  | .paren opener inner closer, h => by
    have hinner : inner.tokens <:+: ts :=
      .trans ⟨[opener.1], [closer.1], by simp [Primary.tokens]⟩ h
    exact Primary.parts_of_children h (List.forall_mem_singleton.2 (inner.parts hinner))
  | .array opener elements closer, h => by
    have helements : elementsTokens elements <:+: ts :=
      .trans ⟨[opener.1], [closer.1], by simp [Primary.tokens]⟩ h
    exact Primary.parts_of_children h (elements_parts elements helements)

theorem elements_parts : (es : Elements Expr) → elementsTokens es <:+: ts →
    ∀ e ∈ elementsTrees es, (Node.expression e).Throughout (Node.Derived ts)
  | .none, _ => List.forall_mem_nil _
  | .last e, h => List.forall_mem_singleton.2 (e.parts h)
  | .more e comma rest, h => by
    have he : e.tokens <:+: ts := .trans ⟨[], comma.1 :: elementsTokens rest, rfl⟩ h
    have hrest : elementsTokens rest <:+: ts :=
      .trans ⟨e.tokens ++ [comma.1], [], by simp [elementsTokens]⟩ h
    exact List.forall_mem_cons.2 ⟨e.parts he, elements_parts rest hrest⟩

end

mutual

/-- **The parts of a statement are derived.** -/
theorem Statement.parts : (s : Statement) → s.tokens <:+: ts →
    (Node.statement s.tree).Throughout (Node.Derived ts)
  | .breakLoop word stop, h =>
    Statement.parts_of_children (.breakLoop word stop) h (List.forall_mem_nil _)
  | .ret word none stop, h =>
    Statement.parts_of_children (.ret word none stop) h (List.forall_mem_nil _)
  | .ret word (some e) stop, h => by
    have he : e.tokens <:+: ts := .trans ⟨[word.1], [stop.1], by simp [Statement.tokens]⟩ h
    refine Statement.parts_of_children (.ret word (some e) stop) h ?_
    exact List.forall_mem_singleton.2 (e.parts he)
  | .loop word condition body, h => by
    have hcondition : condition.tokens <:+: ts :=
      .trans ⟨[word.1], body.tokens, by simp [Statement.tokens]⟩ h
    have hbody : body.tokens <:+: ts :=
      .trans ⟨word.1 :: condition.tokens, [], by simp [Statement.tokens]⟩ h
    refine Statement.parts_of_children (.loop word condition body) h ?_
    exact List.forall_mem_cons.2
      ⟨condition.parts hcondition, List.forall_mem_singleton.2 (body.parts hbody)⟩
  | .branch word condition consequent, h => by
    have hcondition : condition.tokens <:+: ts :=
      .trans ⟨[word.1], consequent.tokens, by simp [Statement.tokens]⟩ h
    have hconsequent : consequent.tokens <:+: ts :=
      .trans ⟨word.1 :: condition.tokens, [], by simp [Statement.tokens]⟩ h
    refine Statement.parts_of_children (.branch word condition consequent) h ?_
    exact List.forall_mem_cons.2
      ⟨condition.parts hcondition, List.forall_mem_singleton.2 (consequent.parts hconsequent)⟩
  | .branchElse word condition consequent other alternate, h => by
    have hcondition : condition.tokens <:+: ts :=
      .trans ⟨[word.1], consequent.tokens ++ other.1 :: alternate.tokens,
        by simp [Statement.tokens]⟩ h
    have hconsequent : consequent.tokens <:+: ts :=
      .trans ⟨word.1 :: condition.tokens, other.1 :: alternate.tokens,
        by simp [Statement.tokens]⟩ h
    have halternate : alternate.tokens <:+: ts :=
      .trans ⟨word.1 :: condition.tokens ++ consequent.tokens ++ [other.1], [],
        by simp [Statement.tokens]⟩ h
    refine Statement.parts_of_children
      (.branchElse word condition consequent other alternate) h ?_
    exact List.forall_mem_cons.2 ⟨condition.parts hcondition, List.forall_mem_cons.2
      ⟨consequent.parts hconsequent, List.forall_mem_singleton.2 (alternate.parts halternate)⟩⟩
  | .expression e stop, h => by
    have he : e.tokens <:+: ts := .trans ⟨[], [stop.1], rfl⟩ h
    refine Statement.parts_of_children (.expression e stop) h ?_
    exact List.forall_mem_singleton.2 (e.parts he)

theorem Body.parts : (b : Body) → b.tokens <:+: ts →
    (Node.block b.tree).Throughout (Node.Derived ts)
  | .mk opener statements closer, h => by
    have hstatements : statementsTokens statements <:+: ts :=
      .trans ⟨[opener.1], [closer.1], by simp [Body.tokens]⟩ h
    refine Node.throughout_iff.2 ⟨trivial, ?_⟩
    exact List.forall_mem_map.2 (statements_parts statements hstatements)

theorem statements_parts : (ss : List Statement) → statementsTokens ss <:+: ts →
    ∀ s ∈ statementsTrees ss, (Node.statement s).Throughout (Node.Derived ts)
  | [], _ => List.forall_mem_nil _
  | s :: more, h => by
    have hs : s.tokens <:+: ts := .trans ⟨[], statementsTokens more, rfl⟩ h
    have hmore : statementsTokens more <:+: ts :=
      .trans ⟨s.tokens, [], by simp [statementsTokens]⟩ h
    exact List.forall_mem_cons.2 ⟨s.parts hs, statements_parts more hmore⟩

end

/-- **The parts of an item are derived.** -/
theorem Item.parts (i : Item) (h : i.tokens <:+: ts) (hlengths : Resolve i.lengths) :
    (Node.ofItem i.tree).Throughout (Node.Derived ts) := by
  cases i with
  | function f =>
    have hbody : f.body.tokens <:+: ts := by
      have hsuffix : f.body.tokens <:+ (Item.function f).tokens := List.suffix_append _ _
      exact hsuffix.isInfix.trans h
    exact Node.throughout_function (fun _ => trivial) (fun _ => trivial)
      ⟨.function f, rfl, h, hlengths⟩ (f.body.parts hbody)
  | struct s =>
    exact Node.throughout_struct (fun _ => trivial) (fun _ => trivial)
      ⟨.struct s, rfl, h, hlengths⟩
  | statement s => exact s.parts h

/-- **The parts of a program are derived.** -/
theorem Program.parts (d : Program) (hlengths : Resolve d.lengths) {i : ArcLang.Item}
    (hi : i ∈ d.trees) : (Node.ofItem i).Throughout (Node.Derived d.tokens) := by
  obtain ⟨j, hj, rfl⟩ := List.mem_map.1 hi
  obtain ⟨front, back, hsplit⟩ := List.append_of_mem hj
  have htokens : j.tokens <:+: d.tokens := by
    refine ⟨front.flatMap Item.tokens, back.flatMap Item.tokens, ?_⟩
    unfold Program.tokens
    rw [hsplit, List.flatMap_append, List.flatMap_cons, List.append_assoc]
  exact j.parts htokens fun t ht => hlengths t (List.mem_flatMap.2 ⟨j, hj, ht⟩)

end Grammar

end ArcLang
