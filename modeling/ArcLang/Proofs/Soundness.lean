import ArcLang.Proofs.Derivations
import ArcLang.Proofs.Steps

/-!
# What types and expressions are read from

Whenever a rule for types or expressions succeeds, on whatever tokens, the tokens that it has
consumed are derived from the grammar, its result is what they denote, and it has taken no more
levels of nesting than it was given.

* `Parser.typeName_sound`, `Parser.expression_sound`: the two rules that statements use.
* `Parser.around_sound`: one level of nesting of the rules for expressions.
-/

namespace ArcLang

namespace Parser

variable {env : Setting} {s s' : State}

/-- Where the rule succeeds, it has read a type with less than so many levels of nesting. -/
def ReadsType (k : Nat) (p : Parser TypeName) : Prop :=
  ∀ {env s t s'}, Gives p env s t s' → ∃ d : Grammar.TypeName, s.Consumes d.tokens s' ∧
    d.tree = t ∧ Grammar.Resolve d.lengths ∧ t.need < k

theorem not_gives_tooDeep {α : Type} {a : α} : ¬ Gives tooDeep env s a s' := by
  intro h
  obtain ⟨t, s₁, -, h⟩ := bind_gives h
  cases h

theorem arrayLength_gives {n : Nat} (h : Gives arrayLength env s n s') :
    ∃ t, t.kind = .number ∧ Numeral.resolve t.lexeme = .length n ∧ s.Consumes [t] s' := by
  obtain ⟨t, s₁, ht, h⟩ := bind_gives h
  obtain ⟨hc, hs, -⟩ := peek_gives ht
  -- at an end, at no number, and at a number that is no length, the rule fails
  split at h
  case h_1 => exact absurd h not_gives_failAt
  case h_3 => exact absurd h not_gives_failAt
  case h_2 hk =>
    split at h
    case h_2 => exact absurd h not_gives_failAt
    case h_3 => cases h
    case h_1 m hm =>
      obtain ⟨u, s₂, hu, h⟩ := bind_gives h
      obtain ⟨rfl, rfl⟩ := pure_gives h
      obtain ⟨rfl, hc'⟩ := advance_shown hu (hc.shows hs) hk (by decide)
      exact ⟨u, hk, hm, hc.after hc'⟩

theorem arrayType_sound {k : Nat} {element : Parser TypeName} (he : ReadsType k element)
    {t : TypeName} (hb : firstKind s.input = .symbol .leftBracket)
    (h : Gives (arrayType element) env s t s') : ∃ d : Grammar.TypeName, s.Consumes d.tokens s' ∧
      d.tree = t ∧ Grammar.Resolve d.lengths ∧ t.need < k + 1 := by
  obtain ⟨opener, s₁, ho, h⟩ := bind_gives h
  obtain ⟨inner, s₂, hi, h⟩ := bind_gives h
  obtain ⟨comma, s₃, hcomma, h⟩ := bind_gives h
  obtain ⟨n, s₄, hn, h⟩ := bind_gives h
  obtain ⟨closer, s₅, hcloser, h⟩ := bind_gives h
  obtain ⟨rfl, rfl⟩ := spanned_gives h
  obtain ⟨hok, hoc⟩ := advance_checked hb (by decide) ho
  obtain ⟨d, hd, rfl, hlengths, hneed⟩ := he hi
  obtain ⟨hck, hcc⟩ := expect_gives (by decide) hcomma
  obtain ⟨number, hnk, hresolve, hnc⟩ := arrayLength_gives hn
  obtain ⟨hclk, hclc⟩ := expectClosing_gives (by decide) hcloser
  refine ⟨.array ⟨opener, hok⟩ d ⟨comma, hck⟩ ⟨number, hnk⟩ ⟨closer, hclk⟩, ?_, ?_, ?_, ?_⟩
  · have := hoc.trans (hd.trans (hcc.trans (hnc.trans hclc)))
    simpa [Grammar.TypeName.tokens] using this
  · rw [hclc.previousEnd]
    simp only [Grammar.TypeName.tree, Grammar.lengthOf, hresolve]
    rfl
  · intro u hu
    rcases List.mem_append.1 hu with hu | hu
    · exact hlengths u hu
    · rw [List.mem_singleton.1 hu]; exact ⟨n, hresolve⟩
  · rw [TypeName.need]; omega

/-- A rule that consumes the token it has looked at, and makes something of it. -/
theorem leaf_gives {α : Type} {t : Token} {k : Kind} {f : Token → α} {a : α}
    (h : Gives (do return f (← advance)) env s a s') (hs : s.Shows t) (hk : t.kind = k)
    (hne : k ≠ .endOfInput) :
    ∃ word : Grammar.Word k, word.1 = t ∧ s.Consumes [word.1] s' ∧ f word.1 = a := by
  obtain ⟨u, s₁, hu, h⟩ := bind_gives h
  obtain ⟨rfl, rfl⟩ := pure_gives h
  obtain ⟨rfl, hc⟩ := advance_shown hu hs hk hne
  exact ⟨⟨u, hk⟩, rfl, hc, rfl⟩

/-- A type is read one level further out than its element. -/
theorem typeNameWith_sound {k : Nat} {element : Parser TypeName} (he : ReadsType k element) :
    ReadsType (k + 1) (typeNameWith element) := by
  intro env s t s' h
  obtain ⟨u, s₁, hu, h⟩ := bind_gives h
  obtain ⟨hc, hs, -⟩ := peek_gives hu
  have hs := hc.shows hs
  split at h
  case h_1 hk =>
    obtain ⟨word, rfl, hw, rfl⟩ := leaf_gives h hs hk (by decide)
    exact ⟨.bool word, hc.after hw, rfl, List.forall_mem_nil _, Nat.succ_pos k⟩
  case h_2 hk =>
    obtain ⟨word, rfl, hw, rfl⟩ := leaf_gives h hs hk (by decide)
    exact ⟨.float word, hc.after hw, rfl, List.forall_mem_nil _, Nat.succ_pos k⟩
  case h_3 signed width hk =>
    obtain ⟨word, rfl, hw, rfl⟩ := leaf_gives h hs hk (by rintro ⟨⟩)
    exact ⟨.int signed width word, hc.after hw, rfl, List.forall_mem_nil _,
      Nat.succ_pos k⟩
  case h_4 hk =>
    obtain ⟨word, rfl, hw, rfl⟩ := leaf_gives h hs hk (by decide)
    exact ⟨.named word, hc.after hw, rfl, List.forall_mem_nil _, Nat.succ_pos k⟩
  case h_5 hk =>
    obtain ⟨d, hd, hrest⟩ := arrayType_sound he (by rw [← hs.kind, hk]) h
    exact ⟨d, hc.after hd, hrest⟩
  case h_6 => exact absurd h not_gives_failAt

/-- **A type that is read is derived,** and not nested too deeply. -/
theorem typeName_sound (room : Nat) : ReadsType (room + 1) (typeName room) := by
  induction room with
  | zero => exact typeNameWith_sound fun h => absurd h not_gives_tooDeep
  | succ room ih => exact typeNameWith_sound ih

/-! ## Expressions -/

/-- Where the rule succeeds, it has read an expression with less than so many levels of nesting. -/
def ReadsExpr (k : Nat) (p : Parser Expr) : Prop :=
  ∀ {env s e s'}, Gives p env s e s' → ∃ d : Grammar.Expr, s.Consumes d.tokens s' ∧
    d.tree = e ∧ e.Placed ∧ e.need < k

/-- Where the rules of a level succeed, each has read what its form is for, with less than so many
levels of nesting. Operands of a chain end before an operator that binds too loosely. -/
structure ReadsForms (k : Nat) (rule : Form → Parser Expr) : Prop where
  whole : ReadsExpr k (rule .whole)
  binary : ∀ {least env s e s'}, Gives (rule (.binary least)) env s e s' →
    ∃ d : Grammar.Chain, s.Consumes d.tokens s' ∧ d.tree = e ∧ e.Placed ∧ e.depth < k ∧
      d.BindsAt least ∧ ∀ op, (firstKind s'.input).binaryOp? = some op → op.rank < least
  unary : ∀ {env s e s'}, Gives (rule .unary) env s e s' →
    ∃ d : Grammar.Operand, s.Consumes d.tokens s' ∧ d.tree = e ∧ e.Placed ∧ e.depth < k

/-- The elements of a list are read as they are read one by one. -/
theorem elements_sound {α δ : Type} {tokens : δ → List Token} {tree : δ → α} {good : δ → Prop}
    {element : Parser α} {closer : Symbol} (steady : Steady [] element)
    (he : ∀ {env s a s'}, Gives element env s a s' →
      ∃ d, s.Consumes (tokens d) s' ∧ tree d = a ∧ good d)
    {acc out : Array α} (h : Gives (iterate (delimitedStep closer element) acc) env s out s') :
    ∃ ds : Grammar.Elements δ, s.Consumes (ds.tokens tokens) s' ∧
      out.toList = acc.toList ++ ds.list.map tree ∧ ∀ d ∈ ds.list, good d := by
  refine iterate_induction (progresses_delimitedStep steady closer)
    (motive := fun acc s out s' => ∃ ds : Grammar.Elements δ, s.Consumes (ds.tokens tokens) s' ∧
      out.toList = acc.toList ++ ds.list.map tree ∧ ∀ d ∈ ds.list, good d) ?_ ?_ h
  -- the last round reads nothing, or an element with no comma behind it
  · intro acc s out s' hs
    rcases delimitedStep_gives hs with ⟨hr, -, hc⟩ | ⟨a, s₁, s₂, hc, ha, hcase⟩
    · cases hr
      exact ⟨.none, hc, by simp [Grammar.Elements.list], List.forall_mem_nil _⟩
    · obtain ⟨d, hd, rfl, hgood⟩ := he ha
      rcases hcase with ⟨t, hr, -⟩ | ⟨hr, hc'⟩
      · cases hr
      · cases hr
        refine ⟨.last d, hc.after (hd.before hc'), by simp [Grammar.Elements.list], ?_⟩
        intro d' hd'
        rw [List.mem_singleton.1 hd']; exact hgood
  -- a round before it reads an element and its comma
  · intro acc s acc₁ s₁ out s' hs ih
    obtain ⟨ds, hds, hout, hgoods⟩ := ih
    rcases delimitedStep_gives hs with ⟨hr, -⟩ | ⟨a, s₂, s₃, hc, ha, hcase⟩
    · cases hr
    · obtain ⟨d, hd, rfl, hgood⟩ := he ha
      rcases hcase with ⟨t, hr, ht, hc'⟩ | ⟨hr, -⟩
      · cases hr
        refine ⟨.more d ⟨t, ht⟩ ds, ?_, ?_, ?_⟩
        · have := (hc.after hd).trans (hc'.trans hds)
          simpa [Grammar.Elements.tokens] using this
        · rw [hout]; simp [Grammar.Elements.list]
        · exact List.forall_mem_cons.2 ⟨hgood, hgoods⟩
      · cases hr

section Expressions

variable {k : Nat} {expression : Parser Expr}

/-- A list of expressions behind its opening symbol. -/
theorem arguments_sound (steady : Steady [] expression) (he : ReadsExpr k expression)
    {closer : Symbol} {acc : Array Expr}
    (h : Gives (iterate (delimitedStep closer expression) #[]) env s acc s') :
    ∃ ds : Grammar.Elements Grammar.Expr, s.Consumes (Grammar.elementsTokens ds) s' ∧
      Grammar.elementsTrees ds = acc.toList ∧ ∀ e ∈ acc.toList, e.Placed ∧ e.need < k := by
  have he' : ∀ {env s a s'}, Gives expression env s a s' →
      ∃ d : Grammar.Expr, s.Consumes d.tokens s' ∧ d.tree = a ∧ d.tree.Placed ∧
        d.tree.need < k := by
    intro env s a s' ha
    obtain ⟨d, hd, rfl, hplaced, hneed⟩ := he ha
    exact ⟨d, hd, rfl, hplaced, hneed⟩
  obtain ⟨ds, hds, hacc, hgood⟩ := elements_sound steady he' h
  rw [← Grammar.elementsTokens_eq] at hds
  refine ⟨ds, hds, ?_, ?_⟩
  · rw [Grammar.elementsTrees_eq, hacc]; rfl
  · intro e he
    rw [hacc] at he
    obtain ⟨d, hd, rfl⟩ := List.mem_map.1 (by simpa using he)
    exact hgood d hd

theorem primary_sound (hk : 0 < k) (steady : Steady [] expression) (he : ReadsExpr k expression)
    {e : Expr} (h : Gives (primary expression) env s e s') :
    ∃ d : Grammar.Primary, s.Consumes d.tokens s' ∧ d.tree = e ∧ e.Placed ∧ e.depth < k := by
  obtain ⟨t, s₁, ht, h⟩ := bind_gives h
  obtain ⟨hc, hs, -⟩ := peek_gives ht
  have hs := hc.shows hs
  have leaf {e : Expr} (h : Node.expressionChildren e = [])
      (he : Node.AssignsToPlace (.expression e)) : e.Placed :=
    Expr.placed_of_children (by rw [h]; exact List.forall_mem_nil _) he
  split at h
  case h_1 hkind =>
    obtain ⟨word, rfl, hw, rfl⟩ := leaf_gives h hs hkind (by decide)
    exact ⟨.number word, hc.after hw, rfl, leaf rfl trivial, hk⟩
  case h_2 value hkind =>
    obtain ⟨word, rfl, hw, rfl⟩ := leaf_gives h hs hkind (by rintro ⟨⟩)
    exact ⟨.boolean value word, hc.after hw, rfl, leaf rfl trivial, hk⟩
  case h_3 hkind =>
    obtain ⟨word, rfl, hw, rfl⟩ := leaf_gives h hs hkind (by decide)
    exact ⟨.char word, hc.after hw, rfl, leaf rfl trivial, hk⟩
  case h_4 hkind =>
    obtain ⟨word, rfl, hw, rfl⟩ := leaf_gives h hs hkind (by decide)
    exact ⟨.string word, hc.after hw, rfl, leaf rfl trivial, hk⟩
  case h_5 hkind =>
    obtain ⟨word, rfl, hw, rfl⟩ := leaf_gives h hs hkind (by decide)
    exact ⟨.name word, hc.after hw, rfl, leaf rfl trivial, hk⟩
  case h_6 hkind =>
    obtain ⟨opener, s₂, ho, h⟩ := bind_gives h
    obtain ⟨inner, s₃, hi, h⟩ := bind_gives h
    obtain ⟨closer, s₄, hcl, h⟩ := bind_gives h
    obtain ⟨rfl, rfl⟩ := spanned_gives h
    obtain ⟨rfl, hoc⟩ := advance_shown ho hs hkind (by decide)
    obtain ⟨d, hd, rfl, hplaced, hneed⟩ := he hi
    obtain ⟨hclk, hclc⟩ := expectClosing_gives (by decide) hcl
    refine ⟨.paren ⟨opener, hkind⟩ d ⟨closer, hclk⟩, ?_, ?_, ?_, hneed⟩
    · simpa [Grammar.Primary.tokens] using hc.after (hoc.trans (hd.trans hclc))
    · rw [hclc.previousEnd]; rfl
    · exact Expr.placed_of_children (List.forall_mem_singleton.2 hplaced) trivial
  case h_7 hkind =>
    obtain ⟨opener, s₂, ho, h⟩ := bind_gives h
    obtain ⟨elements, s₃, hel, h⟩ := bind_gives h
    obtain ⟨rfl, rfl⟩ := spanned_gives h
    obtain ⟨rfl, hoc⟩ := advance_shown ho hs hkind (by decide)
    obtain ⟨acc, s₅, closer, hacc, hclk, hclc, rfl⟩ := delimited_gives hel
    obtain ⟨ds, hds, htrees, hgood⟩ := arguments_sound steady he hacc
    refine ⟨.array ⟨opener, hkind⟩ ds ⟨closer, hclk⟩, ?_, ?_, ?_, ?_⟩
    · simpa [Grammar.Primary.tokens] using hc.after (hoc.trans (hds.trans hclc))
    · rw [hclc.previousEnd, ← htrees]; rfl
    · exact Expr.placed_of_children (fun e he => (hgood e he).1) trivial
    · have := Expr.needEach_le_iff.2 fun e he => Nat.le_sub_one_of_lt (hgood e he).2
      rw [Expr.depth]; omega
  case h_8 => exact absurd h not_gives_failAt

theorem trailed_sound (hk : 0 < k) (steady : Steady [] expression) (he : ReadsExpr k expression)
    {e : Expr} (h : Gives (trailed expression) env s e s') :
    ∃ d : Grammar.Trailed, s.Consumes d.tokens s' ∧ d.tree = e ∧ e.Placed ∧ e.depth < k := by
  obtain ⟨first, s₁, hfirst, h⟩ := bind_gives h
  obtain ⟨d, hd, htree, hplaced, hdepth⟩ := primary_sound hk steady he hfirst
  -- what has been read so far is a trailed expression itself
  refine iterate_induction (progresses_trailingStep steady)
    (motive := fun e s₁ e' s' => ∀ d : Grammar.Trailed, s.Consumes d.tokens s₁ → d.tree = e →
      e.Placed → e.depth < k → ∃ d' : Grammar.Trailed, s.Consumes d'.tokens s' ∧ d'.tree = e' ∧
        e'.Placed ∧ e'.depth < k) ?_ ?_ h (.primary d) hd htree hplaced hdepth
  · intro e s₁ e' s' hstep d hd htree hplaced hdepth
    rcases trailingStep_gives hstep with ⟨hr, hc⟩ | ⟨_, _, _, _, _, hr⟩ |
      ⟨_, _, _, _, _, _, _, _, _, _, hr⟩ | ⟨_, _, _, _, _, _, _, _, _, _, hr⟩
    · cases hr; exact ⟨d, hd.before hc, htree, hplaced, hdepth⟩
    · cases hr
    · cases hr
    · cases hr
  · intro e s₁ e₁ s₂ e' s' hstep ih d hd htree hplaced hdepth
    rcases trailingStep_gives hstep with ⟨hr, -⟩ | ⟨dot, name, hdot, hname, hc, hr⟩ |
      ⟨opener, index, closer, s₃, s₄, ho, hcl, hc, hi, hc', hr⟩ |
      ⟨opener, arguments, closer, s₃, s₄, ho, hcl, hc, ha, hc', hr⟩
    · cases hr
    · cases hr
      refine ih (.member d ⟨dot, hdot⟩ ⟨name, hname⟩) (hd.trans hc) (by rw [← htree]; rfl) ?_ hdepth
      exact Expr.placed_of_children (List.forall_mem_singleton.2 hplaced) trivial
    · cases hr
      obtain ⟨di, hdi, rfl, hiplaced, hineed⟩ := he hi
      refine ih (.index d ⟨opener, ho⟩ di ⟨closer, hcl⟩) ?_ (by rw [← htree]; rfl) ?_
        (Nat.max_lt.2 ⟨hdepth, hineed⟩)
      · simpa [Grammar.Trailed.tokens] using hd.trans (hc.trans (hdi.trans hc'))
      · exact Expr.placed_of_children
          (List.forall_mem_cons.2 ⟨hplaced, List.forall_mem_singleton.2 hiplaced⟩) trivial
    · cases hr
      obtain ⟨ds, hds, htrees, hgood⟩ := arguments_sound steady he ha
      refine ih (.call d ⟨opener, ho⟩ ds ⟨closer, hcl⟩) ?_ (by rw [← htree, ← htrees]; rfl) ?_ ?_
      · simpa [Grammar.Trailed.tokens] using hd.trans (hc.trans (hds.trans hc'))
      · exact Expr.placed_of_children
          (List.forall_mem_cons.2 ⟨hplaced, fun e he => (hgood e he).1⟩) trivial
      · have := Expr.needEach_le_iff.2 fun e he => Nat.le_sub_one_of_lt (hgood e he).2
        rw [Expr.depth]
        omega

end Expressions

section Levels

variable {k : Nat} {inner : Form → Parser Expr}

theorem assignment_sound (hi : ReadsForms k inner) : ReadsExpr (k + 1) (Form.assignment inner) := by
  intro env s e s' h
  obtain ⟨start, s₁, hstart, h⟩ := bind_gives h
  obtain ⟨target, s₂, ht, h⟩ := bind_gives h
  obtain ⟨t, s₃, hpeek, h⟩ := bind_gives h
  obtain ⟨hc, -, -⟩ := peek_gives hstart
  obtain ⟨d, hd, rfl, hplaced, hdepth, -, -⟩ := hi.binary ht
  obtain ⟨hc', hs, -⟩ := peek_gives hpeek
  split at h
  case h_1 =>
    obtain ⟨rfl, rfl⟩ := pure_gives h
    exact ⟨.plain d, hc.after (hd.before hc'), rfl, hplaced, Nat.succ_lt_succ hdepth⟩
  case h_2 op hop =>
    split at h
    case isFalse => exact absurd h not_gives_failAt
    case isTrue haddr =>
      obtain ⟨sign, s₄, hsign, h⟩ := bind_gives h
      obtain ⟨value, s₅, hvalue, h⟩ := bind_gives h
      obtain ⟨rfl, rfl⟩ := pure_gives h
      have hkind := Kind.assignOp?_eq_some_iff.1 hop
      obtain ⟨rfl, hc''⟩ := advance_shown hsign (hc'.shows hs) hkind (by rintro ⟨⟩)
      obtain ⟨dv, hdv, rfl, hvplaced, hvneed⟩ := hi.whole hvalue
      refine ⟨.assign d op ⟨sign, hkind⟩ dv, ?_, rfl, ?_, ?_⟩
      · exact hc.after (hd.trans (hc'.after (hc''.trans hdv)))
      · exact Expr.placed_assign.2 ⟨haddr, hplaced, hvplaced⟩
      · exact Nat.succ_lt_succ (Nat.max_lt.2 ⟨hdepth, hvneed⟩)

theorem operand_sound (steady : ∀ form, Steady [] (inner form)) (hi : ReadsForms k inner) {e : Expr}
    (h : Gives (Form.operand inner) env s e s') :
    ∃ d : Grammar.Operand, s.Consumes d.tokens s' ∧ d.tree = e ∧ e.Placed ∧ e.depth < k + 1 := by
  obtain ⟨t, s₁, ht, h⟩ := bind_gives h
  obtain ⟨hc, hs, -⟩ := peek_gives ht
  split at h
  case h_1 =>
    obtain ⟨d, hd, hrest⟩ := trailed_sound (Nat.succ_pos k)
      (steady_assignment fun _ form => (steady form).mono) (assignment_sound hi) h
    exact ⟨.trailed d, hc.after hd, hrest⟩
  case h_2 op hop =>
    obtain ⟨sign, s₂, hsign, h⟩ := bind_gives h
    obtain ⟨x, s₃, hx, h⟩ := bind_gives h
    obtain ⟨rfl, rfl⟩ := spanned_gives h
    have hkind := Kind.unaryOp?_eq_some_iff.1 hop
    obtain ⟨rfl, hc'⟩ := advance_shown hsign (hc.shows hs) hkind (by rintro ⟨⟩)
    obtain ⟨d, hd, rfl, hplaced, hdepth⟩ := hi.unary hx
    refine ⟨.unary op ⟨sign, hkind⟩ d, hc.after (hc'.trans hd), ?_, ?_, Nat.succ_lt_succ hdepth⟩
    · rw [hd.previousEnd_eq d.starts.ne_nil d.span_tree]; rfl
    · exact Expr.placed_of_children (List.forall_mem_singleton.2 hplaced) trivial

theorem chain_sound (steady : ∀ form, Steady [] (inner form)) (hi : ReadsForms k inner)
    {least : Nat} {e : Expr} (h : Gives (Form.chain inner least) env s e s') :
    ∃ d : Grammar.Chain, s.Consumes d.tokens s' ∧ d.tree = e ∧ e.Placed ∧ e.depth < k + 1 ∧
      d.BindsAt least ∧ ∀ op, (firstKind s'.input).binaryOp? = some op → op.rank < least := by
  obtain ⟨first, s₁, hfirst, h⟩ := bind_gives h
  obtain ⟨d, hd, htree, hplaced, hdepth⟩ := operand_sound steady hi hfirst
  -- the operator to come always fits behind the tree folded so far
  refine iterate_induction (progresses_binaryStep steady least)
    (motive := fun e s₁ e' s' => ∀ d : Grammar.Chain, s.Consumes d.tokens s₁ → d.tree = e →
      e.Placed → e.depth < k + 1 → d.BindsAt least →
      (∀ op, (firstKind s₁.input).binaryOp? = some op → d.tree.FitsLeft op) →
      ∃ d' : Grammar.Chain, s.Consumes d'.tokens s' ∧ d'.tree = e' ∧ e'.Placed ∧
        e'.depth < k + 1 ∧ d'.BindsAt least ∧
        ∀ op, (firstKind s'.input).binaryOp? = some op → op.rank < least)
    ?_ ?_ h (.single d) hd htree hplaced hdepth trivial fun op _ => d.isOperand_tree.fitsLeft op
  · intro e s₁ e' s' hstep d hd htree hplaced hdepth hbinds hfits
    rcases binaryStep_gives hstep with ⟨hr, hc, hstop⟩ | ⟨_, _, _, _, _, _, _, _, hr⟩
    · cases hr
      exact ⟨d, hd.before hc, htree, hplaced, hdepth, hbinds, by rwa [hc.input_eq]⟩
    · cases hr
  · intro e s₁ e₁ s₂ e' s' hstep ih d hd htree hplaced hdepth hbinds hfits
    rcases binaryStep_gives hstep with ⟨hr, -⟩ | ⟨op, t, right, s₃, hkind, hle, hc, hright, hr⟩
    · cases hr
    · cases hr
      obtain ⟨dr, hdr, rfl, hrplaced, hrdepth, hrbinds, hrstop⟩ := hi.binary hright
      have hop : (firstKind s₁.input).binaryOp? = some op := by
        rw [hc.input]; exact Kind.binaryOp?_eq_some_iff.2 hkind
      -- the right operand is a chain of tighter operators, so it goes behind all that is in front
      have happend := Grammar.Chain.tree_append ⟨t, hkind⟩ (hfits op hop) hrbinds
      subst htree
      refine ih (d.append op ⟨t, hkind⟩ dr) ?_ happend ?_ ?_ ?_ ?_
      · rw [Grammar.Chain.tokens_append]; exact hd.trans (hc.trans hdr)
      · exact Expr.placed_binary.2 ⟨hplaced, hrplaced⟩
      · have hdepth' := Expr.depth_join op d.tree dr.tree
        unfold Expr.join at hdepth'
        rw [hdepth']
        exact Nat.max_lt.2 ⟨hdepth, Nat.succ_lt_succ hrdepth⟩
      · exact Grammar.Chain.bindsAt_append.2 ⟨hbinds, hle, hrbinds.mono (by omega)⟩
      · -- the right operand ended before the next operator, which so binds no more tightly
        intro op' hop'
        rw [happend]
        exact Nat.le_of_lt_succ (hrstop op' hop')

/-- **One level of nesting:** if the rules of the level inside read what they are for, so do those
of the level around. -/
theorem around_sound (steady : ∀ form, Steady [] (inner form)) (hi : ReadsForms k inner) :
    ReadsForms (k + 1) (Form.around inner) where
  whole := assignment_sound hi
  binary := chain_sound steady hi
  unary := operand_sound steady hi

theorem within_sound (room : Nat) : ReadsForms (room + 1) (Form.within room) := by
  induction room with
  | zero =>
    refine around_sound (fun _ => steady_tooDeep) ⟨?_, ?_, ?_⟩
    · exact fun h => absurd h not_gives_tooDeep
    · exact fun h => absurd h not_gives_tooDeep
    · exact fun h => absurd h not_gives_tooDeep
  | succ room ih => exact around_sound (fun form => steady_within room form) ih

/-- **An expression that is read is derived,** its assignments are to places, and it is not nested
too deeply. -/
theorem expression_sound (room : Nat) : ReadsExpr (room + 1) (expression room) :=
  (within_sound room).whole

end Levels

end Parser

end ArcLang
