import ArcLang.Proofs.Grammar
import ArcLang.Proofs.Input

/-!
# Facts about derivations

* `Grammar.Expr.starts`, `Grammar.Statement.starts`, `Grammar.Item.starts`: what the first token of
  a derived sequence can be; in particular there is one.
* `Grammar.Expr.span_tree`: the span of a tree covers the tokens that it comes from.
* `Grammar.Chain.tree_append`: a chain behind an operator that binds more loosely than all of its
  own becomes the right operand.
* `Grammar.Chain.exists_append`: every chain with an operator is of that form.
* `Grammar.Expr.isGrouped_tree`: precedence and associativity group what an expression denotes.
-/

namespace ArcLang

/-- The span from the first to the last of some tokens. -/
def cover : List Token → Span
  | [] => default
  | t :: ts => t.span.upTo ((t :: ts).getLast (List.cons_ne_nil t ts)).span

theorem cover_append {ts us : List Token} (hts : ts ≠ []) (hus : us ≠ []) :
    cover (ts ++ us) = (cover ts).upTo (cover us) := by
  obtain ⟨t, ts, rfl⟩ := List.exists_cons_of_ne_nil hts
  obtain ⟨u, us, rfl⟩ := List.exists_cons_of_ne_nil hus
  simp only [cover, List.cons_append, Span.upTo]
  congr 2
  rw [List.getLast_congr _ (by simp) (List.cons_append).symm, List.getLast_append_right hus]

theorem cover_cons (t : Token) {ts : List Token} (h : ts ≠ []) :
    cover (t :: ts) = t.span.upTo (cover ts) := cover_append (List.cons_ne_nil t []) h

/-- The last token consumed is the one that spans end with. -/
theorem State.Consumes.endsAt_eq {s s' : State} {ts : List Token} (h : s.Consumes ts s')
    (hts : ts ≠ []) {span : Span} (hspan : span = cover ts) : s'.EndsAt span.stop := by
  rw [hspan]
  obtain ⟨t, ts, rfl⟩ := List.exists_cons_of_ne_nil hts
  unfold State.EndsAt
  rw [h.previous, List.getLast?_eq_some_getLast hts]
  rfl

theorem State.Consumes.previousEnd_eq {s s' : State} {ts : List Token} (h : s.Consumes ts s')
    (hts : ts ≠ []) {span : Span} (hspan : span = cover ts) (file : String) :
    s'.previousEnd file = span.stop := (h.endsAt_eq hts hspan).previousEnd file

namespace Kind

/-- A token of this kind can be the first of a primary expression. -/
def startsPrimary : Kind → Bool
  | number | char | string | identifier | keyword (.boolean _) => true
  | symbol .leftParen | symbol .leftBracket => true
  | _ => false

/-- A token of this kind can be the first of an expression. -/
def startsExpression (k : Kind) : Bool := k.startsPrimary || k.unaryOp?.isSome

/-- A token of this kind can be the first of a statement. -/
def beginsStatement : Kind → Bool
  | keyword .ifWord | keyword .whileWord | keyword .returnWord | keyword .breakWord => true
  | k => k.startsExpression

/-- A token of this kind can be the first of an item. -/
def beginsItem : Kind → Bool
  | keyword .function | keyword .struct => true
  | k => k.beginsStatement

theorem startsExpression_of_startsPrimary {k : Kind} (h : k.startsPrimary = true) :
    k.startsExpression = true := by
  unfold startsExpression; rw [h, Bool.true_or]

theorem beginsStatement_of_startsExpression {k : Kind} (h : k.startsExpression = true) :
    k.beginsStatement = true := by
  unfold beginsStatement; split
  · rfl
  · rfl
  · rfl
  · rfl
  · exact h

theorem beginsItem_of_beginsStatement {k : Kind} (h : k.beginsStatement = true) :
    k.beginsItem = true := by
  unfold beginsItem; split
  · rfl
  · rfl
  · exact h

end Kind

namespace Grammar

/-- The sequence has a first token, of one of the kinds. -/
def Starts (kinds : Kind → Bool) (ts : List Token) : Prop :=
  ∃ t r, ts = t :: r ∧ kinds t.kind = true

theorem Starts.ne_nil {kinds : Kind → Bool} {ts : List Token} (h : Starts kinds ts) : ts ≠ [] := by
  obtain ⟨t, r, rfl, -⟩ := h
  exact List.cons_ne_nil t r

theorem Starts.append {kinds : Kind → Bool} {ts : List Token} (h : Starts kinds ts)
    (us : List Token) : Starts kinds (ts ++ us) := by
  obtain ⟨t, r, rfl, hk⟩ := h
  exact ⟨t, r ++ us, rfl, hk⟩

theorem Starts.firstKind {kinds : Kind → Bool} {ts : List Token} (h : Starts kinds ts) :
    kinds (firstKind ts) = true := by
  obtain ⟨t, r, rfl, hk⟩ := h
  exact hk

theorem Starts.mono {kinds kinds' : Kind → Bool} {ts : List Token} (h : Starts kinds ts)
    (hle : ∀ k, kinds k = true → kinds' k = true) : Starts kinds' ts := by
  obtain ⟨t, r, rfl, hk⟩ := h
  exact ⟨t, r, rfl, hle _ hk⟩

theorem Starts.of_word {kinds : Kind → Bool} {k : Kind} (word : Word k) (h : kinds k = true)
    (r : List Token) : Starts kinds (word.1 :: r) := ⟨word.1, r, rfl, by rw [word.2]; exact h⟩

theorem Primary.starts (e : Primary) : Starts Kind.startsPrimary e.tokens := by
  cases e with
  | number word => exact .of_word word rfl _
  | char word => exact .of_word word rfl _
  | string word => exact .of_word word rfl _
  | boolean value word => exact .of_word word rfl _
  | name word => exact .of_word word rfl _
  | paren opener inner closer => exact .of_word opener rfl _
  | array opener elements closer => exact .of_word opener rfl _

theorem Trailed.starts : (e : Trailed) → Starts Kind.startsPrimary e.tokens
  | .primary e => e.starts
  | .member target _ _ => target.starts.append _
  | .index target opener place closer => by
    rw [Trailed.tokens, List.append_assoc]; exact target.starts.append _
  | .call callee opener arguments closer => by
    rw [Trailed.tokens, List.append_assoc]; exact callee.starts.append _

theorem Operand.starts (e : Operand) : Starts Kind.startsExpression e.tokens := by
  cases e with
  | unary op sign operand => exact .of_word sign (by cases op <;> rfl) _
  | trailed e => exact e.starts.mono fun _ => Kind.startsExpression_of_startsPrimary

theorem Chain.starts : (e : Chain) → Starts Kind.startsExpression e.tokens
  | .single operand => operand.starts
  | .more front _ _ _ => front.starts.append _

theorem Expr.starts (e : Expr) : Starts Kind.startsExpression e.tokens := by
  cases e with
  | plain operand => exact operand.starts
  | assign target op sign value => exact target.starts.append _

theorem Statement.starts (s : Statement) : Starts Kind.beginsStatement s.tokens := by
  cases s with
  | breakLoop word stop => exact .of_word word rfl _
  | ret word value stop => exact .of_word word rfl _
  | loop word condition body => exact .of_word word rfl _
  | branch word condition consequent => exact .of_word word rfl _
  | branchElse word condition consequent other alternate => exact .of_word word rfl _
  | expression e stop =>
    exact (e.starts.mono fun _ => Kind.beginsStatement_of_startsExpression).append _

theorem Item.starts (i : Item) : Starts Kind.beginsItem i.tokens := by
  cases i with
  | function f => exact .of_word f.word rfl _
  | struct s => exact .of_word s.word rfl _
  | statement s => exact s.starts.mono fun _ => Kind.beginsItem_of_beginsStatement

theorem TypeName.tokens_ne_nil (t : TypeName) : t.tokens ≠ [] := by
  cases t <;> exact List.cons_ne_nil _ _

theorem Body.tokens_ne_nil (b : Body) : b.tokens ≠ [] := by
  cases b; exact List.cons_ne_nil _ _

/-! ## Spans -/

theorem cover_enclosed (opener closer : Token) (ts : List Token) :
    cover (opener :: ts ++ [closer]) = opener.span.upTo closer.span := by
  rw [cover_append (List.cons_ne_nil _ _) (List.cons_ne_nil _ _)]; rfl

theorem Primary.span_tree (e : Primary) : e.tree.span = cover e.tokens := by
  cases e with
  | paren opener inner closer => exact (cover_enclosed _ _ _).symm
  | array opener elements closer => exact (cover_enclosed _ _ _).symm
  | _ => rfl

theorem Trailed.span_tree : (e : Trailed) → e.tree.span = cover e.tokens
  | .primary e => e.span_tree
  | .member target dot name => by
    rw [Trailed.tokens, cover_append target.starts.ne_nil (List.cons_ne_nil _ _),
      ← target.span_tree]
    rfl
  | .index target opener place closer => by
    rw [Trailed.tokens, List.append_assoc, cover_append target.starts.ne_nil (by simp),
      ← target.span_tree, cover_enclosed]
    rfl
  | .call callee opener arguments closer => by
    rw [Trailed.tokens, List.append_assoc, cover_append callee.starts.ne_nil (by simp),
      ← callee.span_tree, cover_enclosed]
    rfl

theorem Operand.span_tree : (e : Operand) → e.tree.span = cover e.tokens
  | .unary op sign operand => by
    rw [Operand.tokens, cover_cons _ operand.starts.ne_nil, ← operand.span_tree]; rfl
  | .trailed e => e.span_tree

theorem Chain.span_tree : (e : Chain) → e.tree.span = cover e.tokens
  | .single operand => operand.span_tree
  | .more front op sign operand => by
    rw [Chain.tokens, cover_append front.starts.ne_nil (List.cons_ne_nil _ _),
      cover_cons _ operand.starts.ne_nil, ← front.span_tree, ← operand.span_tree]
    exact Expr.span_graft _ _ _

/-- **The span of a tree covers its tokens.** -/
theorem Expr.span_tree : (e : Expr) → e.tree.span = cover e.tokens
  | .plain operand => operand.span_tree
  | .assign target op sign value => by
    rw [Expr.tokens, cover_append target.starts.ne_nil (List.cons_ne_nil _ _),
      cover_cons _ value.starts.ne_nil, ← target.span_tree, ← value.span_tree]
    rfl

theorem TypeName.span_tree (t : TypeName) : t.tree.span = cover t.tokens := by
  cases t with
  | array opener element comma length closer =>
    have h : (array opener element comma length closer).tokens =
        opener.1 :: (element.tokens ++ [comma.1, length.1]) ++ [closer.1] := by simp [tokens]
    rw [h, cover_enclosed]; rfl
  | _ => rfl

theorem Body.span_tree (b : Body) : b.tree.span = cover b.tokens := by
  cases b; exact (cover_enclosed _ _ _).symm

/-! ## Chains of operators -/

open ArcLang.Expr (join graft)

/-- Every operator of the chain binds at least so tightly. -/
def Chain.BindsAt (least : Nat) : Chain → Prop
  | .single _ => True
  | .more front op _ _ => front.BindsAt least ∧ least ≤ op.rank

theorem Chain.BindsAt.mono {least least' : Nat} (h : least' ≤ least) :
    {c : Chain} → c.BindsAt least → c.BindsAt least'
  | .single _, _ => trivial
  | .more _ _ _ _, hc => ⟨hc.1.mono h, h.trans hc.2⟩

/-- No operator binds more loosely than the logical or. -/
theorem Chain.bindsAt_logicalOr : (c : Chain) → c.BindsAt Precedence.logicalOr.rank
  | .single _ => trivial
  | .more front op _ _ => ⟨front.bindsAt_logicalOr, by cases op <;> decide⟩

/-- A chain, an operator, and another chain. -/
def Chain.append (front : Chain) (op : BinaryOp) (sign : Sign op.symbol) : Chain → Chain
  | .single operand => .more front op sign operand
  | .more back op' sign' operand => .more (front.append op sign back) op' sign' operand

theorem Chain.tokens_append (front : Chain) (op : BinaryOp) (sign : Sign op.symbol) :
    (back : Chain) → (front.append op sign back).tokens = front.tokens ++ sign.1 :: back.tokens
  | .single _ => rfl
  | .more back _ _ _ => by
    rw [Chain.append, Chain.tokens, tokens_append front op sign back, Chain.tokens]
    simp

theorem Chain.bindsAt_append {front : Chain} {op : BinaryOp} {sign : Sign op.symbol}
    {least : Nat} : {back : Chain} → (front.append op sign back).BindsAt least ↔
      front.BindsAt least ∧ least ≤ op.rank ∧ back.BindsAt least
  | .single _ => by simp [Chain.append, Chain.BindsAt]
  | .more back _ _ _ => by
    rw [Chain.append, Chain.BindsAt, bindsAt_append, Chain.BindsAt]
    simp only [and_assoc]

/-- **A chain behind a looser operator becomes its right operand.** -/
theorem Chain.tree_append {front : Chain} {op : BinaryOp} (sign : Sign op.symbol)
    (hfront : front.tree.FitsLeft op) : {back : Chain} → back.BindsAt (op.rank + 1) →
      (front.append op sign back).tree = join op front.tree back.tree
  | .single operand, _ => ArcLang.Expr.graft_of_fitsLeft hfront operand.tree
  | .more back op' _ operand, h => by
    rw [Chain.append, Chain.tree, tree_append sign hfront h.1]
    exact ArcLang.Expr.graft_join h.2 _ _ _

theorem Trailed.isTrailed_tree (e : Trailed) : e.tree.IsTrailed := by
  cases e with
  | primary e => cases e <;> trivial
  | _ => trivial

theorem Operand.isOperand_tree (e : Operand) : e.tree.IsOperand := by
  cases e with
  | unary => trivial
  | trailed e => exact e.isTrailed_tree.isOperand

/-- The operator at the root of a chain's tree is one of the chain. -/
theorem Chain.rank_le_of_tree : {c : Chain} → {least : Nat} → {span : Span} → {op : BinaryOp} →
    {l r : ArcLang.Expr} → c.BindsAt least → c.tree = .binary span op l r → least ≤ op.rank
  | .single operand, _, _, _, _, _, _, h => by
    have := operand.isOperand_tree
    rw [Chain.tree] at h
    rw [h] at this
    exact this.elim
  -- the last operator is at the root, unless it went into the right side of the one there
  | .more front o _ operand, least, _, op, _, _, hc, h => by
    rw [Chain.tree] at h
    cases hf : front.tree with
    | binary span' o' l' r' =>
      have hfront := rank_le_of_tree hc.1 hf
      rw [hf, graft] at h
      split at h
      · cases h; exact hfront
      · cases h; exact hc.2
    | _ => rw [hf] at h; cases h; exact hc.2

theorem Chain.tree_ne_assign (c : Chain) {span : Span} {t v : ArcLang.Expr} {op : AssignOp} :
    c.tree ≠ .assign span t op v := by
  cases c with
  | single operand =>
    have := operand.isOperand_tree
    intro h
    rw [Chain.tree] at h
    rw [h] at this
    exact this
  | more front op' _ operand =>
    rw [Chain.tree]
    cases front.tree with
    | binary => unfold graft; split <;> rintro ⟨⟩
    | _ => rintro ⟨⟩

/-- A chain of operators may stand to the left of one that binds no more tightly. -/
theorem Chain.fitsLeft_of_bindsAt {c : Chain} {op : BinaryOp} {least : Nat} (h : c.BindsAt least)
    (hle : op.rank ≤ least) : c.tree.FitsLeft op := by
  cases hc : c.tree with
  | binary span o l r => exact hle.trans (c.rank_le_of_tree h hc)
  | assign => exact absurd hc c.tree_ne_assign
  | _ => trivial

/-! ## Grouping of the whole tree -/

mutual

/-- **The tree of an expression is grouped** if its assignments are to places. -/
theorem Expr.isGrouped_tree : (e : Expr) → e.tree.Placed → e.tree.IsGrouped
  | .plain operand, h => operand.isGrouped_tree h
  | .assign target op sign value, h => by
    obtain ⟨haddr, ht, hv⟩ := ArcLang.Expr.placed_assign.1 h
    refine ArcLang.Expr.isGrouped_of_children ?_ haddr
    exact List.forall_mem_cons.2
      ⟨target.isGrouped_tree ht, List.forall_mem_singleton.2 (value.isGrouped_tree hv)⟩

theorem Chain.isGrouped_tree : (c : Chain) → c.tree.Placed → c.tree.IsGrouped
  | .single operand, h => operand.isGrouped_tree h
  | .more front op sign operand, h => by
    obtain ⟨hf, hx⟩ := ArcLang.Expr.placed_graft.1 h
    exact ArcLang.Expr.isGrouped_graft operand.isOperand_tree (operand.isGrouped_tree hx)
      front.tree_ne_assign (front.isGrouped_tree hf)

theorem Operand.isGrouped_tree : (e : Operand) → e.tree.Placed → e.tree.IsGrouped
  | .unary op sign operand, h => by
    have ho := operand.isGrouped_tree (h.of_mem (List.mem_singleton_self _))
    exact ArcLang.Expr.isGrouped_of_children (List.forall_mem_singleton.2 ho)
      operand.isOperand_tree
  | .trailed e, h => e.isGrouped_tree h

theorem Trailed.isGrouped_tree : (e : Trailed) → e.tree.Placed → e.tree.IsGrouped
  | .primary e, h => e.isGrouped_tree h
  | .member target dot name, h => by
    have ht := target.isGrouped_tree (h.of_mem (List.mem_singleton_self _))
    exact ArcLang.Expr.isGrouped_of_children (List.forall_mem_singleton.2 ht)
      target.isTrailed_tree
  | .index target opener place closer, h => by
    have ht := target.isGrouped_tree (h.of_mem List.mem_cons_self)
    have hp := place.isGrouped_tree (h.of_mem (List.mem_cons_of_mem _ List.mem_cons_self))
    refine ArcLang.Expr.isGrouped_of_children ?_ target.isTrailed_tree
    exact List.forall_mem_cons.2 ⟨ht, List.forall_mem_singleton.2 hp⟩
  | .call callee opener arguments closer, h => by
    have hc := callee.isGrouped_tree (h.of_mem List.mem_cons_self)
    have ha := elements_isGrouped arguments fun e he => h.of_mem (List.mem_cons_of_mem _ he)
    exact ArcLang.Expr.isGrouped_of_children (List.forall_mem_cons.2 ⟨hc, ha⟩)
      callee.isTrailed_tree

theorem Primary.isGrouped_tree : (e : Primary) → e.tree.Placed → e.tree.IsGrouped
  | .number word, h | .char word, h | .string word, h | .boolean _ word, h | .name word, h =>
    ArcLang.Expr.isGrouped_of_children (List.forall_mem_nil _) trivial
  | .paren opener inner closer, h => by
    have hi := inner.isGrouped_tree (h.of_mem (List.mem_singleton_self _))
    exact ArcLang.Expr.isGrouped_of_children (List.forall_mem_singleton.2 hi) trivial
  | .array opener elements closer, h =>
    ArcLang.Expr.isGrouped_of_children (elements_isGrouped elements fun _ he => h.of_mem he) trivial

theorem elements_isGrouped : (es : Elements Expr) → (∀ e ∈ elementsTrees es, e.Placed) →
    ∀ e ∈ elementsTrees es, e.IsGrouped
  | .none, _ => List.forall_mem_nil _
  | .last e, h => List.forall_mem_singleton.2 (e.isGrouped_tree (List.forall_mem_singleton.1 h))
  | .more e comma rest, h => by
    obtain ⟨he, hrest⟩ := List.forall_mem_cons.1 h
    exact List.forall_mem_cons.2 ⟨e.isGrouped_tree he, elements_isGrouped rest hrest⟩

end

/-! ## Splitting at the loosest operator -/

/-- The number of operators in a chain. -/
def Chain.length : Chain → Nat
  | .single _ => 0
  | .more front _ _ _ => front.length + 1

theorem Chain.length_append (front : Chain) (op : BinaryOp) (sign : Sign op.symbol) :
    (back : Chain) → (front.append op sign back).length = front.length + 1 + back.length
  | .single _ => rfl
  | .more back _ _ _ => by
    rw [Chain.append, Chain.length, length_append front op sign back, Chain.length]; omega

/-- The last operator of those that bind most loosely splits a chain. -/
theorem Chain.exists_append : (front : Chain) → (op : BinaryOp) → (sign : Sign op.symbol) →
    (operand : Operand) → ∃ (l : Chain) (o : BinaryOp) (sign' : Sign o.symbol) (r : Chain),
      Chain.more front op sign operand = l.append o sign' r ∧ l.tree.FitsLeft o ∧
        r.BindsAt (o.rank + 1)
  | .single x, op, sign, operand =>
    ⟨.single x, op, sign, .single operand, rfl, x.isOperand_tree.fitsLeft op, trivial⟩
  | .more front op' sign' x, op, sign, operand => by
    obtain ⟨l, o, s, r, h, hl, hr⟩ := exists_append front op' sign' x
    -- a tighter operator goes into the right part, any other splits the whole chain itself
    by_cases hlt : o.rank < op.rank
    · refine ⟨l, o, s, .more r op sign operand, ?_, hl, hr, hlt⟩
      rw [h]; rfl
    · refine ⟨.more front op' sign' x, op, sign, .single operand, rfl, ?_, trivial⟩
      rw [h, tree_append s hl hr]
      exact Nat.le_of_not_lt hlt

/-- **Induction along the grouping:** a chain is one operand, or a chain, an operator that fits
behind it, and a chain of tighter operators. -/
theorem Chain.induction {motive : Chain → Prop} (single : ∀ x, motive (.single x))
    (append : ∀ l op (sign : Sign op.symbol) r, motive l → motive r → l.tree.FitsLeft op →
      r.BindsAt (op.rank + 1) → motive (l.append op sign r)) (c : Chain) : motive c := by
  induction hn : c.length using Nat.strongRecOn generalizing c with
  | ind n ih =>
    cases c with
    | single x => exact single x
    | more front op sign operand =>
      obtain ⟨l, o, s, r, h, hl, hr⟩ := Chain.exists_append front op sign operand
      rw [h, Chain.length_append] at hn
      rw [h]
      exact append l o s r (ih l.length (by omega) l rfl) (ih r.length (by omega) r rfl) hl hr

/-! ## Lists -/

theorem elementsTokens_eq (es : Elements Expr) : elementsTokens es = es.tokens Expr.tokens := by
  induction es with
  | none => rfl
  | last e => rfl
  | more e comma rest ih => rw [elementsTokens, ih]; rfl

theorem elementsTrees_eq (es : Elements Expr) : elementsTrees es = es.list.map Expr.tree := by
  induction es with
  | none => rfl
  | last e => rfl
  | more e comma rest ih => rw [elementsTrees, ih]; rfl

theorem statementsTokens_eq (ss : List Statement) :
    statementsTokens ss = ss.flatMap Statement.tokens := by
  induction ss with
  | nil => rfl
  | cons s ss ih => rw [statementsTokens, ih]; rfl

theorem statementsTrees_eq (ss : List Statement) :
    statementsTrees ss = ss.map Statement.tree := by
  induction ss with
  | nil => rfl
  | cons s ss ih => rw [statementsTrees, ih]; rfl

end Grammar

end ArcLang
