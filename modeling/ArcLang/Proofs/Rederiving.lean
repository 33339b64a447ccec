import ArcLang.Proofs.Canonical
import ArcLang.Proofs.Derivations
import ArcLang.Proofs.Erasure

/-!
# Deriving a canonical tree from its marks

Tokens that stand for the marks of a canonical tree have a derivation that denotes the tree, spans
apart. Of an expression there is a derivation in each nonterminal that the tree is narrow enough
for: that of an operator is put together from a chain for each of its operands.

* `Derivable`: whatever tokens stand for some marks, they are derived.
* `Expr.reads`, `Stmt.derivable`, `Item.derivable`: the statements for the parts of a program.
* `Program.derivable`: the statement for programs.
-/

namespace ArcLang

open Grammar (Word Sign Resolve)
open Mark (keyword symbol Fits commaSeparated)

/-- Whatever tokens stand for the marks, they are derived by something of which `R` holds. -/
def Derivable {δ : Type} (tokens : δ → List Token) (ms : List Mark) (R : δ → Prop) : Prop :=
  ∀ ⦃ts⦄, List.Forall₂ Fits ms ts → ∃ d, tokens d = ts ∧ R d

theorem Derivable.map {δ δ' : Type} {tokens : δ → List Token} {tokens' : δ' → List Token}
    {ms : List Mark} {R : δ → Prop} {R' : δ' → Prop} (h : Derivable tokens ms R) (f : δ → δ')
    (htokens : ∀ d, tokens' (f d) = tokens d) (hR : ∀ d, R d → R' (f d)) :
    Derivable tokens' ms R' := by
  intro ts hts
  obtain ⟨d, hd, hr⟩ := h hts
  exact ⟨f d, (htokens d).trans hd, hR d hr⟩

section Fits

variable {ms ns : List Mark} {ts : List Token}

theorem fits_append (h : List.Forall₂ Fits (ms ++ ns) ts) :
    ∃ us vs, ts = us ++ vs ∧ List.Forall₂ Fits ms us ∧ List.Forall₂ Fits ns vs := by
  induction ms generalizing ts with
  | nil => exact ⟨[], ts, rfl, .nil, h⟩
  | cons m ms ih =>
    obtain ⟨t, r, ht, hr, rfl⟩ := List.forall₂_cons_left_iff.1 h
    obtain ⟨us, vs, rfl, hus, hvs⟩ := ih hr
    exact ⟨t :: us, vs, rfl, .cons ht hus, hvs⟩

theorem fits_word {k : Kind} {text : String} (h : List.Forall₂ Fits (.word k text :: ms) ts) :
    ∃ (word : Word k) (r : List Token), ts = word.1 :: r ∧ word.1.lexeme = text ∧
      List.Forall₂ Fits ms r := by
  obtain ⟨t, r, ⟨hkind, htext⟩, hr, rfl⟩ := List.forall₂_cons_left_iff.1 h
  exact ⟨⟨t, hkind⟩, r, rfl, htext, hr⟩

theorem fits_keyword {k : Keyword} (h : List.Forall₂ Fits (keyword k :: ms) ts) :
    ∃ (word : Word (.keyword k)) (r : List Token), ts = word.1 :: r ∧ List.Forall₂ Fits ms r := by
  obtain ⟨word, r, rfl, -, hr⟩ := fits_word h
  exact ⟨word, r, rfl, hr⟩

theorem fits_symbol {s : Symbol} (h : List.Forall₂ Fits (symbol s :: ms) ts) :
    ∃ (sign : Sign s) (r : List Token), ts = sign.1 :: r ∧ List.Forall₂ Fits ms r := by
  obtain ⟨word, r, rfl, -, hr⟩ := fits_word h
  exact ⟨word, r, rfl, hr⟩

theorem fits_length {n : Nat} (h : List.Forall₂ Fits (.length n :: ms) ts) :
    ∃ (word : Word .number) (r : List Token), ts = word.1 :: r ∧
      Numeral.resolve word.1.lexeme = .length n ∧ List.Forall₂ Fits ms r := by
  obtain ⟨t, r, ⟨hkind, hn⟩, hr, rfl⟩ := List.forall₂_cons_left_iff.1 h
  exact ⟨⟨t, hkind⟩, r, rfl, hn, hr⟩

theorem fits_nil (h : List.Forall₂ Fits [] ts) : ts = [] := List.forall₂_nil_left_iff.1 h

end Fits

/-- Lists of what can be derived can, without a comma behind the last. -/
theorem derivable_elements {α δ : Type} {marks : α → List Mark} {tokens : δ → List Token}
    {R : α → δ → Prop} : (as : List α) → (∀ a ∈ as, Derivable tokens (marks a) (R a)) →
      Derivable (Grammar.Elements.tokens tokens) (commaSeparated (as.map marks))
        fun ds => List.Forall₂ R as ds.list
  | [], _ => fun ts hts => ⟨.none, (fits_nil hts).symm, .nil⟩
  | [a], h => (h a (List.mem_singleton_self a)).map .last (fun _ => rfl) fun _ hd => .cons hd .nil
  | a :: b :: more, h => by
    intro ts hts
    obtain ⟨ha, hmore⟩ := List.forall_mem_cons.1 h
    obtain ⟨us, vs, rfl, hus, hvs⟩ := fits_append hts
    obtain ⟨comma, r, rfl, hr⟩ := fits_symbol hvs
    obtain ⟨d, rfl, hd⟩ := ha hus
    obtain ⟨ds, rfl, hds⟩ := derivable_elements (b :: more) hmore hr
    exact ⟨.more d comma ds, rfl, .cons hd hds⟩

section Lists

variable {α δ σ : Type} {as : List α} {ds : List δ}

theorem map_eq_of_forall₂ {shape : δ → σ} {shape' : α → σ}
    (h : List.Forall₂ (fun a d => shape d = shape' a) as ds) : ds.map shape = as.map shape' := by
  induction h with
  | nil => rfl
  | cons hd _ ih => rw [List.map_cons, hd, ih, List.map_cons]

theorem forall_mem_of_forall₂ {Q : δ → Prop} (h : List.Forall₂ (fun _ d => Q d) as ds) :
    ∀ d ∈ ds, Q d := by
  induction h with
  | nil => exact List.forall_mem_nil _
  | cons hd _ ih => exact List.forall_mem_cons.2 ⟨hd, ih⟩

end Lists

theorem TypeName.derivable (t : TypeName) : Derivable Grammar.TypeName.tokens t.marks
    fun d => d.tree.erased = t.erased ∧ Resolve d.lengths := by
  intro ts hts
  induction t generalizing ts with
  | bool span =>
    obtain ⟨word, r, rfl, hr⟩ := fits_keyword hts
    exact ⟨.bool word, by rw [fits_nil hr]; rfl, rfl, List.forall_mem_nil _⟩
  | float span =>
    obtain ⟨word, r, rfl, hr⟩ := fits_keyword hts
    exact ⟨.float word, by rw [fits_nil hr]; rfl, rfl, List.forall_mem_nil _⟩
  | int span signed width =>
    obtain ⟨word, r, rfl, hr⟩ := fits_keyword hts
    exact ⟨.int signed width word, by rw [fits_nil hr]; rfl, rfl,
      List.forall_mem_nil _⟩
  | named span text =>
    obtain ⟨word, r, rfl, rfl, hr⟩ := fits_word hts
    exact ⟨.named word, by rw [fits_nil hr]; rfl, rfl, List.forall_mem_nil _⟩
  | array span element n ih =>
    obtain ⟨opener, _, rfl, hinner⟩ := fits_symbol hts
    obtain ⟨us, vs, rfl, hus, hvs⟩ := fits_append hinner
    obtain ⟨comma, _, rfl, hlength⟩ := fits_symbol hvs
    obtain ⟨length, _, rfl, hn, hclose⟩ := fits_length hlength
    obtain ⟨closer, _, rfl, hnil⟩ := fits_symbol hclose
    obtain ⟨d, rfl, htree, hlengths⟩ := ih hus
    refine ⟨.array opener d comma length closer, by rw [fits_nil hnil]; rfl, ?_, ?_⟩
    · simp only [Grammar.TypeName.tree, erased, htree, Grammar.lengthOf, hn]
    · exact List.forall_mem_append.2 ⟨hlengths, List.forall_mem_singleton.2 ⟨n, hn⟩⟩

namespace Expr

/-- The expression may be written where operators bind at least so tightly. -/
def BindsAt (least : Nat) : Expr → Prop
  | binary _ op _ _ => least ≤ op.rank
  | assign .. => False
  | _ => True

theorem FitsLeft.bindsAt {op : BinaryOp} {e : Expr} (h : e.FitsLeft op) : e.BindsAt op.rank := by
  cases e <;> exact h

theorem FitsRight.bindsAt {op : BinaryOp} {e : Expr} (h : e.FitsRight op) :
    e.BindsAt (op.rank + 1) := by
  cases e <;> exact h

/-- The expression can be derived, in each nonterminal that it is narrow enough for. -/
structure Reads (e : Expr) : Prop where
  trailed : e.IsTrailed → Derivable Grammar.Trailed.tokens e.marks fun d => d.tree.erased = e.erased
  operand : e.IsOperand → Derivable Grammar.Operand.tokens e.marks fun d => d.tree.erased = e.erased
  chain : ∀ least, e.BindsAt least → Derivable Grammar.Chain.tokens e.marks
    fun d => d.tree.erased = e.erased ∧ d.BindsAt least
  whole : Derivable Grammar.Expr.tokens e.marks fun d => d.tree.erased = e.erased

theorem Reads.of_operand {e : Expr} (he : ¬ e.IsTrailed)
    (h : Derivable Grammar.Operand.tokens e.marks fun d => d.tree.erased = e.erased) : e.Reads where
  trailed ht := absurd ht he
  operand _ := h
  chain _ _ := h.map .single (fun _ => rfl) fun _ hd => ⟨hd, trivial⟩
  whole := h.map (fun d => .plain (.single d)) (fun _ => rfl) fun _ hd => hd

theorem Reads.of_trailed {e : Expr}
    (h : Derivable Grammar.Trailed.tokens e.marks fun d => d.tree.erased = e.erased) : e.Reads where
  trailed _ := h
  operand _ := h.map .trailed (fun _ => rfl) fun _ hd => hd
  chain _ _ := h.map (fun d => .single (.trailed d)) (fun _ => rfl) fun _ hd => ⟨hd, trivial⟩
  whole := h.map (fun d => .plain (.single (.trailed d))) (fun _ => rfl) fun _ hd => hd

theorem Reads.of_primary {e : Expr}
    (h : Derivable Grammar.Primary.tokens e.marks fun d => d.tree.erased = e.erased) : e.Reads :=
  .of_trailed (h.map .primary (fun _ => rfl) fun _ hd => hd)

theorem isTrailed_of_isAddressable {e : Expr} (h : e.isAddressable = true) : e.IsTrailed := by
  cases e <;> trivial

theorem quoted_unquote {quote : Char} {text : String} {t : Token}
    (h : t.lexeme = quoted quote text) : Grammar.unquoted t = text := by
  unfold Grammar.unquoted
  rw [h]
  unfold quoted
  rw [String.toList_ofList]
  simp

/-- **Operators rebuild their tree:** a chain for the left operand, and behind the operator one for
the right operand, in which all operators bind more tightly. -/
theorem Reads.binary {span : Span} {op : BinaryOp} {l r : Expr} (hl : l.Reads) (hr : r.Reads)
    (hleft : l.FitsLeft op) (hright : r.FitsRight op) : (Expr.binary span op l r).Reads := by
  have hchain (least : Nat) (hleast : least ≤ op.rank) :
      Derivable Grammar.Chain.tokens (Expr.binary span op l r).marks
        fun d => d.tree.erased = (Expr.binary span op l r).erased ∧ d.BindsAt least := by
    intro ts hts
    obtain ⟨us, vs, rfl, hus, hvs⟩ := fits_append hts
    obtain ⟨sign, ws, rfl, hws⟩ := fits_symbol hvs
    obtain ⟨front, rfl, hftree, hfront⟩ := hl.chain _ hleft.bindsAt hus
    obtain ⟨back, rfl, hbtree, hback⟩ := hr.chain _ hright.bindsAt hws
    -- all that is behind the operator binds more tightly and so becomes its right operand
    refine ⟨front.append op sign back, Grammar.Chain.tokens_append front op sign back, ?_, ?_⟩
    · rw [Grammar.Chain.tree_append sign (front.fitsLeft_of_bindsAt hfront le_rfl) hback]
      simp only [join, erased, hftree, hbtree]
    · exact Grammar.Chain.bindsAt_append.2
        ⟨hfront.mono hleast, hleast, hback.mono (hleast.trans (Nat.le_succ _))⟩
  exact {
    trailed := fun h => h.elim
    operand := fun h => h.elim
    chain := hchain
    whole := (hchain op.rank le_rfl).map .plain (fun _ => rfl) fun _ hd => hd.1 }

theorem Reads.unary {span : Span} {op : UnaryOp} {e : Expr} (he : e.Reads) (h : e.IsOperand) :
    (Expr.unary span op e).Reads := by
  refine .of_operand (fun h => h) fun ts hts => ?_
  obtain ⟨sign, us, rfl, hus⟩ := fits_symbol hts
  obtain ⟨d, rfl, hd⟩ := he.operand h hus
  exact ⟨.unary op sign d, rfl, by simp only [Grammar.Operand.tree, erased, hd]⟩

theorem Reads.assign {span : Span} {t v : Expr} {op : AssignOp} (ht : t.Reads) (hv : v.Reads)
    (h : t.isAddressable = true) : (Expr.assign span t op v).Reads where
  trailed h := h.elim
  operand h := h.elim
  chain _ h := h.elim
  whole := by
    intro ts hts
    obtain ⟨us, vs, rfl, hus, hvs⟩ := fits_append hts
    obtain ⟨sign, ws, rfl, hws⟩ := fits_symbol hvs
    obtain ⟨d, rfl, hd⟩ := ht.trailed (isTrailed_of_isAddressable h) hus
    obtain ⟨d', rfl, hd'⟩ := hv.whole hws
    exact ⟨.assign (.single (.trailed d)) op sign d', rfl, by
      simp only [Grammar.Expr.tree, Grammar.Chain.tree, Grammar.Operand.tree, erased, hd, hd']⟩

theorem Reads.member {span : Span} {t : Expr} {text : String} (ht : t.Reads) (h : t.IsTrailed) :
    (Expr.member span t text).Reads := by
  refine .of_trailed fun ts hts => ?_
  obtain ⟨us, vs, rfl, hus, hvs⟩ := fits_append hts
  obtain ⟨dot, ws, rfl, hws⟩ := fits_symbol hvs
  obtain ⟨word, _, rfl, rfl, hnil⟩ := fits_word hws
  obtain ⟨d, rfl, hd⟩ := ht.trailed h hus
  refine ⟨.member d dot word, by rw [fits_nil hnil]; rfl, ?_⟩
  simp only [Grammar.Trailed.tree, erased, hd]

theorem Reads.index {span : Span} {t place : Expr} (ht : t.Reads) (hplace : place.Reads)
    (h : t.IsTrailed) : (Expr.index span t place).Reads := by
  refine .of_trailed fun ts hts => ?_
  obtain ⟨front, close, rfl, hfront, hclose⟩ := fits_append hts
  obtain ⟨us, vs, rfl, hus, hvs⟩ := fits_append hfront
  obtain ⟨opener, ws, rfl, hws⟩ := fits_symbol hvs
  obtain ⟨closer, _, rfl, hnil⟩ := fits_symbol hclose
  obtain ⟨d, rfl, hd⟩ := ht.trailed h hus
  obtain ⟨d', rfl, hd'⟩ := hplace.whole hws
  refine ⟨.index d opener d' closer, by rw [fits_nil hnil]; rfl, ?_⟩
  simp only [Grammar.Trailed.tree, erased, hd, hd']

/-- Lists of expressions between two symbols. -/
theorem derivable_list {es : List Expr} (h : ∀ e ∈ es, e.Reads) :
    Derivable Grammar.elementsTokens (commaSeparated (marksEach es))
      fun ds => erasedEach (Grammar.elementsTrees ds) = erasedEach es := by
  rw [marksEach_eq]
  refine (derivable_elements es fun e he => (h e he).whole).map id
    (fun ds => Grammar.elementsTokens_eq ds) fun ds hds => ?_
  rw [id, Grammar.elementsTrees_eq, erasedEach_eq, List.map_map, erasedEach_eq]
  exact map_eq_of_forall₂ hds

theorem Reads.call {span : Span} {callee : Expr} {arguments : List Expr} (hc : callee.Reads)
    (ha : ∀ e ∈ arguments, e.Reads) (h : callee.IsTrailed) :
    (Expr.call span callee arguments).Reads := by
  refine .of_trailed fun ts hts => ?_
  obtain ⟨front, close, rfl, hfront, hclose⟩ := fits_append hts
  obtain ⟨us, vs, rfl, hus, hvs⟩ := fits_append hfront
  obtain ⟨opener, ws, rfl, hws⟩ := fits_symbol hvs
  obtain ⟨closer, _, rfl, hnil⟩ := fits_symbol hclose
  obtain ⟨d, rfl, hd⟩ := hc.trailed h hus
  obtain ⟨ds, rfl, hds⟩ := derivable_list ha hws
  refine ⟨.call d opener ds closer, by rw [fits_nil hnil]; rfl, ?_⟩
  simp only [Grammar.Trailed.tree, erased, hd, hds]

theorem Reads.paren {span : Span} {e : Expr} (he : e.Reads) : (Expr.paren span e).Reads := by
  refine .of_primary fun ts hts => ?_
  obtain ⟨opener, us, rfl, hus⟩ := fits_symbol hts
  obtain ⟨inner, close, rfl, hinner, hclose⟩ := fits_append hus
  obtain ⟨closer, _, rfl, hnil⟩ := fits_symbol hclose
  obtain ⟨d, rfl, hd⟩ := he.whole hinner
  refine ⟨.paren opener d closer, by rw [fits_nil hnil]; rfl, ?_⟩
  simp only [Grammar.Primary.tree, erased, hd]

theorem Reads.array {span : Span} {es : List Expr} (h : ∀ e ∈ es, e.Reads) :
    (Expr.array span es).Reads := by
  refine .of_primary fun ts hts => ?_
  obtain ⟨opener, us, rfl, hus⟩ := fits_symbol hts
  obtain ⟨inner, close, rfl, hinner, hclose⟩ := fits_append hus
  obtain ⟨closer, _, rfl, hnil⟩ := fits_symbol hclose
  obtain ⟨ds, rfl, hds⟩ := derivable_list h hinner
  refine ⟨.array opener ds closer, by rw [fits_nil hnil]; rfl, ?_⟩
  simp only [Grammar.Primary.tree, erased, hds]

/-- A literal or a name. -/
theorem Reads.word {k : Kind} {text : String} {e : Expr} (f : Word k → Grammar.Primary)
    (hmarks : e.marks = [.word k text]) (htokens : ∀ word, (f word).tokens = [word.1])
    (htree : ∀ word : Word k, word.1.lexeme = text → (f word).tree.erased = e.erased) :
    e.Reads := by
  refine .of_primary fun ts hts => ?_
  rw [hmarks] at hts
  obtain ⟨word, _, rfl, hword, hnil⟩ := fits_word hts
  exact ⟨f word, by rw [fits_nil hnil, htokens], htree word hword⟩

/-- **Every canonical expression can be derived from its marks.** -/
theorem reads : (e : Expr) → e.IsCanonical → e.Reads
  | char _ text, _ => .word .char rfl (fun _ => rfl) fun word hword => by
    rw [Grammar.Primary.tree, erased, quoted_unquote hword, erased]
  | string _ text, _ => .word .string rfl (fun _ => rfl) fun word hword => by
    rw [Grammar.Primary.tree, erased, quoted_unquote hword, erased]
  | number _ text radix, h => .word .number rfl (fun _ => rfl) fun word hword => by
    rw [Grammar.Primary.tree, erased, hword, ← h.root.lexical.2, erased]
  | boolean _ value, _ => .word (.boolean value) rfl (fun _ => rfl) fun _ _ => rfl
  | name _ text, _ => .word .name rfl (fun _ => rfl) fun word hword => by
    rw [Grammar.Primary.tree, erased, hword, erased]
  | array _ elements, h => .array fun e he => reads e (h.part he)
  | member _ target text, h =>
    .member (reads target (h.part (List.mem_singleton_self _))) h.root.grouped
  | index _ target place, h =>
    .index (reads target (h.part List.mem_cons_self))
      (reads place (h.part (List.mem_cons_of_mem _ List.mem_cons_self))) h.root.grouped
  | call _ callee arguments, h =>
    .call (reads callee (h.part List.mem_cons_self))
      (fun e he => reads e (h.part (List.mem_cons_of_mem _ he))) h.root.grouped
  | binary _ op left right, h => by
    obtain ⟨hleft, hright⟩ := h.root.grouped
    exact .binary (reads left (h.part List.mem_cons_self))
      (reads right (h.part (List.mem_cons_of_mem _ List.mem_cons_self))) hleft hright
  | unary _ op operand, h =>
    .unary (reads operand (h.part (List.mem_singleton_self _))) h.root.grouped
  | paren _ inner, h => .paren (reads inner (h.part (List.mem_singleton_self _)))
  | assign _ target op value, h =>
    .assign (reads target (h.part List.mem_cons_self))
      (reads value (h.part (List.mem_cons_of_mem _ List.mem_cons_self))) h.root.grouped

end Expr

mutual

/-- **Every canonical statement can be derived from its marks.** -/
theorem Stmt.derivable : (s : Stmt) → (Node.statement s).Throughout Node.Canonical →
    Derivable Grammar.Statement.tokens s.marks fun d => d.tree.erased = s.erased
  | .breakLoop _, _ => fun ts hts => by
    obtain ⟨word, _, rfl, hstop⟩ := fits_keyword hts
    obtain ⟨stop, _, rfl, hnil⟩ := fits_symbol hstop
    exact ⟨.breakLoop word stop, by rw [fits_nil hnil]; rfl, rfl⟩
  | .ret _ none, _ => fun ts hts => by
    obtain ⟨word, _, rfl, hstop⟩ := fits_keyword hts
    obtain ⟨stop, _, rfl, hnil⟩ := fits_symbol hstop
    exact ⟨.ret word none stop, by rw [fits_nil hnil]; rfl, rfl⟩
  | .ret _ (some e), h => fun ts hts => by
    obtain ⟨word, _, rfl, hrest⟩ := fits_keyword hts
    obtain ⟨us, _, rfl, hus, hstop⟩ := fits_append hrest
    obtain ⟨stop, _, rfl, hnil⟩ := fits_symbol hstop
    obtain ⟨d, rfl, hd⟩ := (e.reads (h.child (List.mem_singleton_self _))).whole hus
    refine ⟨.ret word (some d) stop, by rw [fits_nil hnil]; rfl, ?_⟩
    simp only [Grammar.Statement.tree, Option.map_some, Stmt.erased, hd]
  | .loop _ condition body, h => fun ts hts => by
    obtain ⟨front, _, rfl, hfront, hvs⟩ := fits_append hts
    obtain ⟨word, us, rfl, hus⟩ := fits_keyword hfront
    obtain ⟨d, rfl, hd⟩ := (condition.reads (h.child List.mem_cons_self)).whole hus
    obtain ⟨b, rfl, hb⟩ :=
      body.derivable (h.child (List.mem_cons_of_mem _ List.mem_cons_self)) hvs
    refine ⟨.loop word d b, rfl, ?_⟩
    simp only [Grammar.Statement.tree, Stmt.erased, hd, hb]
  | .branch _ condition consequent none, h => fun ts hts => by
    obtain ⟨front, _, rfl, hfront, hvs⟩ := fits_append hts
    obtain ⟨word, us, rfl, hus⟩ := fits_keyword hfront
    obtain ⟨d, rfl, hd⟩ := (condition.reads (h.child List.mem_cons_self)).whole hus
    obtain ⟨b, rfl, hb⟩ :=
      consequent.derivable (h.child (List.mem_cons_of_mem _ List.mem_cons_self)) hvs
    refine ⟨.branch word d b, rfl, ?_⟩
    simp only [Grammar.Statement.tree, Stmt.erased, hd, hb]
  | .branch _ condition consequent (some alternate), h => fun ts hts => by
    obtain ⟨first, _, rfl, hfirst, hother⟩ := fits_append hts
    obtain ⟨front, _, rfl, hfront, hvs⟩ := fits_append hfirst
    obtain ⟨word, us, rfl, hus⟩ := fits_keyword hfront
    obtain ⟨other, _, rfl, hws⟩ := fits_keyword hother
    obtain ⟨d, rfl, hd⟩ := (condition.reads (h.child List.mem_cons_self)).whole hus
    obtain ⟨b, rfl, hb⟩ :=
      consequent.derivable (h.child (List.mem_cons_of_mem _ List.mem_cons_self)) hvs
    obtain ⟨b', rfl, hb'⟩ := alternate.derivable
      (h.child (List.mem_cons_of_mem _ (List.mem_cons_of_mem _ List.mem_cons_self))) hws
    refine ⟨.branchElse word d b other b', rfl, ?_⟩
    simp only [Grammar.Statement.tree, Stmt.erased, hd, hb, hb']
  | .expression _ e, h => fun ts hts => by
    obtain ⟨us, _, rfl, hus, hstop⟩ := fits_append hts
    obtain ⟨stop, _, rfl, hnil⟩ := fits_symbol hstop
    obtain ⟨d, rfl, hd⟩ := (e.reads (h.child (List.mem_singleton_self _))).whole hus
    refine ⟨.expression d stop, by rw [fits_nil hnil]; rfl, ?_⟩
    simp only [Grammar.Statement.tree, Stmt.erased, hd]

theorem Block.derivable : (b : Block) → (Node.block b).Throughout Node.Canonical →
    Derivable Grammar.Body.tokens b.marks fun d => d.tree.erased = b.erased
  | .mk _ statements, h => fun ts hts => by
    obtain ⟨front, _, rfl, hfront, hclose⟩ := fits_append hts
    obtain ⟨opener, us, rfl, hus⟩ := fits_symbol hfront
    obtain ⟨closer, _, rfl, hnil⟩ := fits_symbol hclose
    obtain ⟨ds, rfl, hds⟩ :=
      Stmt.derivable_each statements (fun s hs => h.child (List.mem_map_of_mem hs)) hus
    refine ⟨.mk opener ds closer, by rw [fits_nil hnil]; rfl, ?_⟩
    simp only [Grammar.Body.tree, Block.erased, hds]

theorem Stmt.derivable_each : (ss : List Stmt) →
    (∀ s ∈ ss, (Node.statement s).Throughout Node.Canonical) →
      Derivable Grammar.statementsTokens (Stmt.marksEach ss)
        fun ds => Stmt.erasedEach (Grammar.statementsTrees ds) = Stmt.erasedEach ss
  | [], _ => fun ts hts => ⟨[], (fits_nil hts).symm, rfl⟩
  | s :: more, h => fun ts hts => by
    obtain ⟨hs, hmore⟩ := List.forall_mem_cons.1 h
    obtain ⟨us, vs, rfl, hus, hvs⟩ := fits_append hts
    obtain ⟨d, rfl, hd⟩ := s.derivable hs hus
    obtain ⟨ds, rfl, hds⟩ := Stmt.derivable_each more hmore hvs
    refine ⟨d :: ds, rfl, ?_⟩
    show Stmt.erasedEach (d.tree :: Grammar.statementsTrees ds) = _
    rw [Stmt.erasedEach, hd, hds, Stmt.erasedEach]

end

theorem Binding.derivable (b : Binding) : Derivable Grammar.Binding.tokens b.marks
    fun d => d.tree.erased = b.erased ∧ Resolve d.type.lengths := by
  intro ts hts
  obtain ⟨word, _, rfl, hword, hcolon⟩ := fits_word hts
  obtain ⟨colon, us, rfl, hus⟩ := fits_symbol hcolon
  obtain ⟨d, rfl, htree, hlengths⟩ := b.type.derivable hus
  refine ⟨⟨word, colon, d⟩, rfl, ?_, hlengths⟩
  simp only [Grammar.Binding.tree, Binding.erased, hword, htree]

/-- Lists of bindings between two symbols. -/
theorem derivable_bindings (bs : List Binding) :
    Derivable (Grammar.Elements.tokens Grammar.Binding.tokens)
      (commaSeparated (bs.map Binding.marks))
      fun ds => (ds.list.map Grammar.Binding.tree).map Binding.erased = bs.map Binding.erased ∧
        Resolve (ds.list.flatMap (·.type.lengths)) := by
  refine (derivable_elements bs fun b _ => b.derivable).map id (fun _ => rfl) fun ds hds => ?_
  constructor
  · rw [id, List.map_map]
    exact map_eq_of_forall₂ (hds.imp fun _ _ h => h.1)
  · intro t ht
    obtain ⟨d, hd, ht⟩ := List.mem_flatMap.1 ht
    exact forall_mem_of_forall₂ (hds.imp fun _ _ h => h.2) d hd t ht

theorem derivable_result (r : Option TypeName) :
    Derivable (fun d : Option (Sign .colon × Grammar.TypeName) =>
        (d.map fun d => d.1.1 :: d.2.tokens).getD [])
      ((r.map fun t => symbol .colon :: t.marks).getD [])
      fun d => (d.map (·.2.tree)).map TypeName.erased = r.map TypeName.erased ∧
        Resolve ((d.map (·.2.lengths)).getD []) := by
  intro ts hts
  cases r with
  | none => exact ⟨none, (fits_nil hts).symm, rfl, List.forall_mem_nil _⟩
  | some t =>
    obtain ⟨colon, us, rfl, hus⟩ := fits_symbol hts
    obtain ⟨d, rfl, htree, hlengths⟩ := t.derivable hus
    exact ⟨some (colon, d), rfl, congrArg some htree, hlengths⟩

theorem Function.derivable (f : Function) (h : (Node.function f).Throughout Node.Canonical) :
    Derivable Grammar.Function.tokens f.marks
      fun d => d.tree.erased = f.erased ∧ Resolve (Grammar.Item.function d).lengths := by
  intro ts hts
  obtain ⟨head, _, rfl, hhead, hbody⟩ := fits_append hts
  obtain ⟨start, _, rfl, hstart, hclose⟩ := fits_append hhead
  obtain ⟨word, _, rfl, hname⟩ := fits_keyword hstart
  obtain ⟨name, _, rfl, htext, hopen⟩ := fits_word hname
  obtain ⟨opener, _, rfl, hparameters⟩ := fits_symbol hopen
  obtain ⟨closer, _, rfl, hresult⟩ := fits_symbol hclose
  obtain ⟨ds, rfl, hds, hlengths⟩ := derivable_bindings f.parameters hparameters
  obtain ⟨r, rfl, hr, hlengths'⟩ := derivable_result f.result hresult
  obtain ⟨b, rfl, hb⟩ :=
    f.body.derivable (h.child (List.mem_append_right _ (List.mem_singleton_self _))) hbody
  refine ⟨⟨word, name, opener, ds, closer, r, b⟩, rfl, ?_, ?_⟩
  · simp only [Grammar.Function.tree, Function.erased, htext, hds, hr, hb]
  · exact List.forall_mem_append.2 ⟨hlengths, hlengths'⟩

theorem Struct.derivable (s : Struct) : Derivable Grammar.Struct.tokens s.marks
    fun d => d.tree.erased = s.erased ∧ Resolve (Grammar.Item.struct d).lengths := by
  intro ts hts
  obtain ⟨start, _, rfl, hstart, hclose⟩ := fits_append hts
  obtain ⟨word, _, rfl, hname⟩ := fits_keyword hstart
  obtain ⟨name, _, rfl, htext, hopen⟩ := fits_word hname
  obtain ⟨opener, _, rfl, hfields⟩ := fits_symbol hopen
  obtain ⟨closer, _, rfl, hnil⟩ := fits_symbol hclose
  obtain ⟨ds, rfl, hds, hlengths⟩ := derivable_bindings s.fields hfields
  refine ⟨⟨word, name, opener, ds, closer⟩, by rw [fits_nil hnil]; rfl, ?_, hlengths⟩
  simp only [Grammar.Struct.tree, Struct.erased, htext, hds]

theorem Item.derivable (i : Item) (h : (Node.ofItem i).Throughout Node.Canonical) :
    Derivable Grammar.Item.tokens i.marks
      fun d => d.tree.erased = i.erased ∧ Resolve d.lengths := by
  cases i with
  | function f =>
    exact (f.derivable h).map .function (fun _ => rfl)
      fun _ hd => ⟨congrArg Item.function hd.1, hd.2⟩
  | struct s =>
    exact s.derivable.map .struct (fun _ => rfl) fun _ hd => ⟨congrArg Item.struct hd.1, hd.2⟩
  | statement s =>
    exact (s.derivable h).map .statement (fun _ => rfl)
      fun _ hd => ⟨congrArg Item.statement hd, List.forall_mem_nil _⟩

theorem derivable_items : (items : List Item) →
    (∀ i ∈ items, (Node.ofItem i).Throughout Node.Canonical) →
      Derivable Grammar.Program.tokens (items.flatMap Item.marks)
        fun d => d.trees.map Item.erased = items.map Item.erased ∧ Resolve d.lengths
  | [], _ => fun ts hts => ⟨⟨[]⟩, (fits_nil hts).symm, rfl, List.forall_mem_nil _⟩
  | i :: items, h => fun ts hts => by
    obtain ⟨hi, hmore⟩ := List.forall_mem_cons.1 h
    obtain ⟨us, vs, rfl, hus, hvs⟩ := fits_append hts
    obtain ⟨d, rfl, htree, hlengths⟩ := i.derivable hi hus
    obtain ⟨ds, rfl, htrees, hlengths'⟩ := derivable_items items hmore hvs
    refine ⟨⟨d :: ds.items⟩, rfl, ?_, List.forall_mem_append.2 ⟨hlengths, hlengths'⟩⟩
    show d.tree.erased :: ds.trees.map Item.erased = _
    rw [htree, htrees, List.map_cons]

/-- **Every canonical program can be derived from its marks.** -/
theorem Program.derivable {p : Program} (h : (Node.program p).Throughout Node.Canonical) :
    Derivable Grammar.Program.tokens p.marks
      fun d => d.trees.map Item.erased = p.items.map Item.erased ∧ Resolve d.lengths :=
  derivable_items p.items fun _ hi => h.child (List.mem_map_of_mem hi)

end ArcLang
