import ArcLang.Proofs.Calm
import ArcLang.Proofs.Soundness

/-!
# What types and expressions are read

The converse of soundness: on tokens that are derived, with enough room for the nesting, the rules
succeed, consume just these tokens and give what they denote. An expression must be followed by a
token that cannot go on with it.

* `Parser.typeName_complete`, `Parser.expression_complete`: the two rules that statements use.
* `Parser.around_complete`: one level of nesting of the rules for expressions.
-/

namespace ArcLang

namespace Kind

/-- A token of this kind goes on with a primary expression before it. -/
def trails : Kind → Bool
  | symbol .dot | symbol .leftBracket | symbol .leftParen => true
  | _ => false

/-- A token of this kind does not go on with an expression before it. -/
def endsExpression (k : Kind) : Bool :=
  !k.trails && k.binaryOp?.isNone && k.assignOp?.isNone

theorem unaryOp?_of_startsPrimary {k : Kind} (h : k.startsPrimary = true) : k.unaryOp? = none := by
  unfold startsPrimary at h
  split at h <;> first | rfl | cases h

theorem endsExpression_iff {k : Kind} : k.endsExpression = true ↔
    k.trails = false ∧ k.binaryOp? = none ∧ k.assignOp? = none := by
  simp [endsExpression, and_assoc]

end Kind

namespace Parser

open State (Calm Takes)
open Grammar (Word Sign Elements)

variable {α δ : Type} {env : Setting} {s s' : State} {rest : List Token}

/-- Before these tokens and then one that the rule stops at, it consumes just them and gives the
value. -/
def Completes (p : Parser α) (ts : List Token) (a : α) (stops : Kind → Prop) : Prop :=
  ∀ ⦃env s rest⦄, s.Calm → s.input = ts ++ rest → stops (firstKind rest) →
    ∃ s', Gives p env s a s' ∧ s.Takes ts s'

theorem Completes.map {β : Type} {p : Parser α} {ts : List Token} {a : α} {stops : Kind → Prop}
    (h : Completes p ts a stops) (f : α → β) : Completes (f <$> p) ts (f a) stops := by
  intro env s rest hs hi hstop
  obtain ⟨s', hg, ht⟩ := h hs hi hstop
  exact ⟨s', gives_map f hg, ht⟩

theorem endsExpression_at {k : Kind} (word : Word k) (h : k.endsExpression = true)
    (r : List Token) : (firstKind (word.1 :: r)).endsExpression = true := by
  rw [firstKind_cons, word.2]
  exact h

/-- A rule that looks at a token, consumes it and goes on. -/
theorem headed_complete {k : Kind} (word : Word k) {rule : Token → Parser α}
    (next : Token → Parser α) {ts : List Token} {a : α} {stops : Kind → Prop}
    (h : Completes (next word.1) ts a stops)
    (hrule : rule word.1 = do next (← advance)) :
    Completes (peek >>= rule) (word.1 :: ts) a stops := by
  intro env s rest hs hi hstop
  obtain ⟨s₁, s₂, hpeek, hadvance, ht₂, hi₂⟩ := first_calm hs hi env
  obtain ⟨s₃, hg, ht₃⟩ := h ht₂.calm hi₂ hstop
  refine ⟨s₃, gives_bind hpeek ?_, ht₂.trans ht₃⟩
  rw [hrule]
  exact gives_bind hadvance hg

/-- A single token that a rule looks at and then consumes. -/
theorem leaf_complete {k : Kind} (word : Word k) {rule : Token → Parser α} {f : Token → α}
    (hs : s.Calm) (hi : s.input = [word.1] ++ rest)
    (h : rule word.1 = do return f (← advance)) :
    ∃ s', Gives (peek >>= rule) env s (f word.1) s' ∧ s.Takes [word.1] s' := by
  obtain ⟨s₁, s₂, hpeek, hadvance, ht, -⟩ := first_calm hs hi env
  refine ⟨s₂, gives_bind hpeek ?_, ht⟩
  rw [h]
  exact gives_bind hadvance (gives_pure _)

/-! ## Types -/

theorem arrayLength_complete (word : Word .number)
    (h : ∃ n, Numeral.resolve word.1.lexeme = .length n) :
    Completes arrayLength [word.1] (Grammar.lengthOf word) fun _ => True := by
  intro env s rest hs hi _
  obtain ⟨n, hn⟩ := h
  obtain ⟨s₁, s₂, hpeek, hadvance, ht, -⟩ := first_calm hs hi env
  refine ⟨s₂, gives_bind hpeek ?_, ht⟩
  simp only [word.2, hn, Grammar.lengthOf]
  exact gives_bind hadvance (gives_pure n)

theorem arrayType_complete {element : Parser TypeName} (opener : Sign .leftBracket)
    (d : Grammar.TypeName) (comma : Sign .comma) (length : Word .number)
    (closer : Sign .rightBracket) (h : ∃ n, Numeral.resolve length.1.lexeme = .length n)
    (he : Completes element d.tokens d.tree fun _ => True) :
    Completes (arrayType element) (Grammar.TypeName.array opener d comma length closer).tokens
      (Grammar.TypeName.array opener d comma length closer).tree fun _ => True := by
  intro env s rest hs hi _
  have hi : s.input = opener.1 :: (d.tokens ++ (comma.1 :: length.1 :: closer.1 :: rest)) := by
    rw [hi]; simp [Grammar.TypeName.tokens]
  obtain ⟨s₁, hg₁, ht₁⟩ := advance_calm hs hi env
  have hi₁ := ht₁.input_cons hi
  obtain ⟨s₂, hg₂, ht₂⟩ := he ht₁.calm hi₁ trivial
  have hi₂ := ht₂.input hi₁
  obtain ⟨s₃, hg₃, ht₃⟩ := expect_calm ht₂.calm hi₂ comma.2 "',' before array length" env
  have hi₃ := ht₃.input_cons hi₂
  obtain ⟨s₄, hg₄, ht₄⟩ := arrayLength_complete length h ht₃.calm hi₃ trivial
  obtain ⟨s₅, hg₅, ht₅⟩ := expectClosing_calm ht₄.calm (ht₄.input hi₃) closer.2 "']'" opener.1 env
  refine ⟨s₅, ?_, ?_⟩
  · refine gives_bind hg₁ (gives_bind hg₂ (gives_bind hg₃ (gives_bind hg₄ (gives_bind hg₅ ?_))))
    exact gives_spanned ht₅.consumes.endsAt
  · have := ht₁.trans (ht₂.trans (ht₃.trans (ht₄.trans ht₅)))
    simpa [Grammar.TypeName.tokens] using this

/-- A type is read where the rule for elements reads its element, if it has one. -/
theorem typeNameWith_complete {element : Parser TypeName} (d : Grammar.TypeName)
    (hlengths : Grammar.Resolve d.lengths)
    (he : ∀ {opener e comma length closer}, d = .array opener e comma length closer →
      Completes element e.tokens e.tree fun _ => True) :
    Completes (typeNameWith element) d.tokens d.tree fun _ => True := by
  intro env s rest hs hi hstop
  unfold typeNameWith
  cases d with
  | bool word =>
    exact leaf_complete word (f := fun t => TypeName.bool t.span) hs hi (by simp only [word.2])
  | float word =>
    exact leaf_complete word (f := fun t => TypeName.float t.span) hs hi (by simp only [word.2])
  | int signed width word =>
    exact leaf_complete word (f := fun t => TypeName.int t.span signed width) hs hi
      (by simp only [word.2])
  | named word =>
    exact leaf_complete word (f := fun t => TypeName.named t.span word.1.lexeme) hs hi
      (by simp only [word.2])
  | array opener e comma length closer =>
    have hlength := hlengths length.1 (List.mem_append_right _ (List.mem_singleton_self _))
    obtain ⟨s₁, hpeek, ht₁⟩ := peek_calm_of_input hs hi env
    obtain ⟨s₂, hg, ht₂⟩ := arrayType_complete opener e comma length closer hlength (he rfl)
      ht₁.calm (ht₁.input_eq.trans hi) hstop
    refine ⟨s₂, gives_bind hpeek ?_, ht₁.after ht₂⟩
    simp only [opener.2]
    exact hg

/-- **A type that is derived is read,** where there is room for it. -/
theorem typeName_complete (d : Grammar.TypeName) {room : Nat} (hlengths : Grammar.Resolve d.lengths)
    (hneed : d.tree.need ≤ room) : Completes (typeName room) d.tokens d.tree fun _ => True := by
  induction room generalizing d with
  | zero =>
    refine typeNameWith_complete d hlengths ?_
    rintro opener e comma length closer rfl
    exact absurd hneed (Nat.not_succ_le_zero _)
  | succ room ih =>
    refine typeNameWith_complete d hlengths ?_
    rintro opener e comma length closer rfl
    exact ih e (fun t ht => hlengths t (List.mem_append_left _ ht)) (Nat.le_of_succ_le_succ hneed)

/-! ## Lists -/

section Lists

variable {element : Parser α} {tokens : δ → List Token} {tree : δ → α} {closer : Symbol}
  {stops : Kind → Prop} {kinds : Kind → Bool}

/-- The elements of a list are read one by one, up to the closing symbol. -/
theorem elements_complete (steady : Steady [] element) (ds : Elements δ)
    (he : ∀ d ∈ ds.list, Completes element (tokens d) (tree d) stops ∧
      Grammar.Starts kinds (tokens d))
    (hcomma : stops (.symbol .comma)) (hcloser : stops (.symbol closer))
    (hkinds : kinds (.symbol closer) = false) (hne : closer ≠ .comma) (env : Setting)
    (acc : Array α) (hs : s.Calm) (hi : s.input = ds.tokens tokens ++ rest)
    (hrest : firstKind rest = .symbol closer) :
    ∃ out s', Gives (iterate (delimitedStep closer element) acc) env s out s' ∧
      s.Takes (ds.tokens tokens) s' ∧ out.toList = acc.toList ++ ds.list.map tree := by
  have hstep := progresses_delimitedStep steady closer
  -- an element that is to come is not taken for the closing symbol
  have hopen {d : δ} {r : List Token} (hd : Grammar.Starts kinds (tokens d)) :
      firstKind (tokens d ++ r) ≠ .symbol closer := by
    intro h
    have := (hd.append r).firstKind
    rw [h, hkinds] at this
    cases this
  induction ds generalizing acc s with
  | none =>
    obtain ⟨s₁, hcheck, ht⟩ := check_calm hs (.symbol closer) env
    rw [hi, show firstKind (Elements.none.tokens tokens ++ rest) = .symbol closer from hrest,
      decide_eq_true rfl] at hcheck
    refine ⟨acc, s₁, gives_iterate_done hstep (gives_bind hcheck (gives_pure _)), ht, ?_⟩
    simp [Elements.list]
  | last d =>
    obtain ⟨hd, hstarts⟩ := he d (List.mem_singleton_self d)
    have hi : s.input = tokens d ++ rest := hi
    obtain ⟨s₁, hcheck, ht₁⟩ := check_calm hs (.symbol closer) env
    rw [hi, decide_eq_false (hopen hstarts)] at hcheck
    obtain ⟨s₂, hg, ht₂⟩ := hd ht₁.calm (ht₁.input_eq.trans hi) (hrest ▸ hcloser)
    have hlast : firstKind s₂.input ≠ .symbol .comma := by
      rw [(ht₁.after ht₂).input hi, hrest]
      exact fun h => hne (Kind.symbol.inj h)
    obtain ⟨s₃, haccept, ht₃⟩ := accept_refused ht₂.calm hlast env
    refine ⟨acc.push (tree d), s₃, gives_iterate_done hstep ?_, ht₁.after (ht₂.before ht₃), ?_⟩
    · exact gives_bind hcheck (gives_bind hg (gives_bind haccept (gives_pure _)))
    · simp [Elements.list]
  | more d comma ds ih =>
    obtain ⟨⟨hd, hstarts⟩, hds⟩ := List.forall_mem_cons.1 he
    have hi : s.input = tokens d ++ (comma.1 :: (ds.tokens tokens ++ rest)) := by
      rw [hi]; simp [Elements.tokens]
    obtain ⟨s₁, hcheck, ht₁⟩ := check_calm hs (.symbol closer) env
    rw [hi, decide_eq_false (hopen hstarts)] at hcheck
    have hstop : stops (firstKind (comma.1 :: (ds.tokens tokens ++ rest))) := by
      rw [firstKind_cons, comma.2]
      exact hcomma
    obtain ⟨s₂, hg, ht₂⟩ := hd ht₁.calm (ht₁.input_eq.trans hi) hstop
    have hi₂ := (ht₁.after ht₂).input hi
    obtain ⟨s₃, haccept, ht₃⟩ := accept_taken ht₂.calm hi₂ comma.2 env
    obtain ⟨out, s₄, hout, ht₄, hlist⟩ := ih hds (acc.push (tree d)) ht₃.calm
      (ht₃.input_cons hi₂)
    refine ⟨out, s₄, gives_iterate_yield hstep ?_ hout, ?_, ?_⟩
    · exact gives_bind hcheck (gives_bind hg (gives_bind haccept (gives_pure _)))
    · simpa [Elements.tokens] using ht₁.after (ht₂.trans (ht₃.trans ht₄))
    · rw [hlist]; simp [Elements.list]

/-- A list is read together with its closing symbol. -/
theorem delimited_complete (steady : Steady [] element) (ds : Elements δ)
    (he : ∀ d ∈ ds.list, Completes element (tokens d) (tree d) stops ∧
      Grammar.Starts kinds (tokens d))
    (hcomma : stops (.symbol .comma)) (hcloser : stops (.symbol closer))
    (hkinds : kinds (.symbol closer) = false) (hne : closer ≠ .comma) (opener : Token)
    (sign : Sign closer) :
    Completes (delimited opener closer element) (ds.tokens tokens ++ [sign.1]) (ds.list.map tree)
      fun _ => True := by
  intro env s rest hs hi _
  have hi : s.input = ds.tokens tokens ++ (sign.1 :: rest) := by rw [hi]; simp
  obtain ⟨out, s₁, hg, ht₁, hout⟩ := elements_complete steady ds he hcomma hcloser hkinds hne
    env #[] hs hi sign.2
  obtain ⟨s₂, hclose, ht₂⟩ := expectClosing_calm ht₁.calm (ht₁.input hi) sign.2
    (quotedSymbol closer) opener env
  refine ⟨s₂, gives_bind hg (gives_bind hclose ?_), ht₁.trans ht₂⟩
  rw [show ds.list.map tree = out.toList by simpa using hout.symm]
  exact gives_pure _

end Lists

/-! ## Expressions -/

/-- Reads every expression that is nested in less than so many levels and assigns to places. -/
def CompletesExpr (k : Nat) (p : Parser Expr) : Prop :=
  ∀ d : Grammar.Expr, d.tree.Placed → d.tree.need < k →
    Completes p d.tokens d.tree (·.endsExpression = true)

/-- Where the rules of a level are complete, each reads what its form is for, if that is nested in
less than so many levels. -/
structure CompletesForms (k : Nat) (rule : Form → Parser Expr) : Prop where
  whole : CompletesExpr k (rule .whole)
  binary : ∀ {least} (d : Grammar.Chain), d.tree.Placed → d.tree.depth < k → d.BindsAt least →
    Completes (rule (.binary least)) d.tokens d.tree fun kind => kind.trails = false ∧
      ∀ op, kind.binaryOp? = some op → op.rank < least
  unary : ∀ d : Grammar.Operand, d.tree.Placed → d.tree.depth < k →
    Completes (rule .unary) d.tokens d.tree (·.trails = false)

section Expressions

variable {k : Nat} {expression : Parser Expr}

/-- A list of expressions with its closing symbol. -/
theorem arguments_complete (steady : Steady [] expression) (he : CompletesExpr k expression)
    {closer : Symbol} (hne : closer ≠ .comma) (hcloser : (Kind.symbol closer).endsExpression = true)
    (hkinds : (Kind.symbol closer).startsExpression = false) (ds : Elements Grammar.Expr)
    (hplaced : ∀ e ∈ Grammar.elementsTrees ds, e.Placed)
    (hneed : Expr.needEach (Grammar.elementsTrees ds) < k) (opener : Token) (sign : Sign closer) :
    Completes (delimited opener closer expression) (Grammar.elementsTokens ds ++ [sign.1])
      (Grammar.elementsTrees ds) fun _ => True := by
  rw [Grammar.elementsTrees_eq] at hplaced hneed ⊢
  rw [Grammar.elementsTokens_eq]
  have hes : ∀ d ∈ ds.list, Completes expression d.tokens d.tree (·.endsExpression = true) ∧
      Grammar.Starts Kind.startsExpression d.tokens := by
    intro d hd
    have hmem := List.mem_map_of_mem (f := Grammar.Expr.tree) hd
    have hle := Expr.needEach_le_iff.1 le_rfl d.tree hmem
    exact ⟨he d (hplaced _ hmem) (by omega), d.starts⟩
  exact delimited_complete steady ds hes rfl hcloser hkinds hne opener sign

theorem primary_complete (steady : Steady [] expression) (he : CompletesExpr k expression)
    (d : Grammar.Primary) (hplaced : d.tree.Placed) (hdepth : d.tree.depth < k) :
    Completes (primary expression) d.tokens d.tree fun _ => True := by
  intro env s rest hs hi _
  unfold primary
  cases d with
  | number word =>
    exact leaf_complete word (f := fun t => Expr.number t.span word.1.lexeme (.of word.1.lexeme))
      hs hi (by simp only [word.2])
  | boolean value word =>
    exact leaf_complete word (f := fun t => Expr.boolean t.span value) hs hi (by simp only [word.2])
  | char word =>
    exact leaf_complete word (f := fun t => Expr.char t.span (unquoted word.1.lexeme)) hs hi
      (by simp only [word.2])
  | string word =>
    exact leaf_complete word (f := fun t => Expr.string t.span (unquoted word.1.lexeme)) hs hi
      (by simp only [word.2])
  | name word =>
    exact leaf_complete word (f := fun t => Expr.name t.span word.1.lexeme) hs hi
      (by simp only [word.2])
  | paren opener inner closer =>
    have hi : s.input = opener.1 :: (inner.tokens ++ (closer.1 :: rest)) := by
      rw [hi]; simp [Grammar.Primary.tokens]
    obtain ⟨s₁, s₂, hpeek, hopen, ht₂, hi₂⟩ := first_calm hs hi env
    obtain ⟨s₃, hinner, ht₃⟩ := he inner (hplaced.of_mem (List.mem_singleton_self _)) hdepth
      ht₂.calm hi₂ (endsExpression_at closer rfl rest)
    obtain ⟨s₄, hclose, ht₄⟩ := expectClosing_calm ht₃.calm (ht₃.input hi₂) closer.2
      (quotedSymbol .rightParen) opener.1 env
    refine ⟨s₄, gives_bind hpeek ?_, ?_⟩
    · simp only [opener.2]
      refine gives_bind hopen (gives_bind hinner (gives_bind hclose ?_))
      exact gives_spanned ht₄.consumes.endsAt
    · simpa [Grammar.Primary.tokens] using ht₂.trans (ht₃.trans ht₄)
  | array opener elements closer =>
    have hi : s.input = opener.1 :: ((Grammar.elementsTokens elements ++ [closer.1]) ++ rest) := by
      rw [hi]; simp [Grammar.Primary.tokens]
    obtain ⟨s₁, s₂, hpeek, hopen, ht₂, hi₂⟩ := first_calm hs hi env
    obtain ⟨s₃, hlist, ht₃⟩ := arguments_complete steady he (by decide) rfl rfl elements
      (fun e hm => hplaced.of_mem hm) hdepth opener.1 closer ht₂.calm hi₂ trivial
    refine ⟨s₃, gives_bind hpeek ?_, ?_⟩
    · simp only [opener.2]
      refine gives_bind hopen (gives_bind hlist ?_)
      exact gives_spanned ht₃.consumes.endsAt_concat
    · simpa [Grammar.Primary.tokens] using ht₂.trans ht₃

theorem memberStep_complete (e : Expr) (dot : Sign .dot) (name : Word .identifier) :
    Completes (trailingStep expression e) [dot.1, name.1]
      (.yield (.member (e.span.upTo name.1.span) e name.1.lexeme)) fun _ => True := by
  refine headed_complete dot (fun _ => do
    let name ← expect .identifier "member name after '.'"
    return .yield (.member (← spanFrom e.span.start) e name.lexeme)) ?_ (by simp only [dot.2])
  intro env s rest hs hi _
  obtain ⟨s₁, hname, ht₁⟩ := expect_calm hs hi name.2 "member name after '.'" env
  exact ⟨s₁, gives_bind hname (gives_spanned ht₁.consumes.endsAt), ht₁⟩

theorem indexStep_complete (he : CompletesExpr k expression) (e : Expr) (opener : Sign .leftBracket)
    (place : Grammar.Expr) (closer : Sign .rightBracket) (hplaced : place.tree.Placed)
    (hneed : place.tree.need < k) :
    Completes (trailingStep expression e) (opener.1 :: (place.tokens ++ [closer.1]))
      (.yield (.index (e.span.upTo closer.1.span) e place.tree)) fun _ => True := by
  refine headed_complete opener (fun opener => do
    let index ← expression
    let _ ← expectClosing (.symbol .rightBracket) (quotedSymbol .rightBracket) opener
    return .yield (.index (← spanFrom e.span.start) e index)) ?_ (by simp only [opener.2])
  intro env s rest hs hi _
  rw [List.append_assoc] at hi
  obtain ⟨s₁, hg, ht₁⟩ := he place hplaced hneed hs hi (endsExpression_at closer rfl rest)
  obtain ⟨s₂, hclose, ht₂⟩ := expectClosing_calm ht₁.calm (ht₁.input hi) closer.2
    (quotedSymbol .rightBracket) opener.1 env
  refine ⟨s₂, gives_bind hg (gives_bind hclose ?_), ht₁.trans ht₂⟩
  exact gives_spanned ht₂.consumes.endsAt

theorem callStep_complete (steady : Steady [] expression) (he : CompletesExpr k expression)
    (e : Expr) (opener : Sign .leftParen) (arguments : Elements Grammar.Expr)
    (closer : Sign .rightParen) (hplaced : ∀ e ∈ Grammar.elementsTrees arguments, e.Placed)
    (hneed : Expr.needEach (Grammar.elementsTrees arguments) < k) :
    Completes (trailingStep expression e)
      (opener.1 :: (Grammar.elementsTokens arguments ++ [closer.1]))
      (.yield (.call (e.span.upTo closer.1.span) e (Grammar.elementsTrees arguments)))
      fun _ => True := by
  refine headed_complete opener (fun opener => do
    let arguments ← delimited opener .rightParen expression
    return .yield (.call (← spanFrom e.span.start) e arguments)) ?_ (by simp only [opener.2])
  intro env s rest hs hi _
  obtain ⟨s₁, hg, ht₁⟩ := arguments_complete steady he (by decide) rfl rfl arguments hplaced hneed
    opener.1 closer hs hi trivial
  exact ⟨s₁, gives_bind hg (gives_spanned ht₁.consumes.endsAt_concat), ht₁⟩

/-- A rule for what trails a primary expression comes to the point where it has read so much. -/
theorem trailed_arrives (steady : Steady [] expression) (he : CompletesExpr k expression) :
    (d : Grammar.Trailed) → d.tree.Placed → d.tree.depth < k → ∀ {env s rest}, s.Calm →
      s.input = d.tokens ++ rest → ∃ s₁, s.Takes d.tokens s₁ ∧
        ∀ {e s'}, Gives (iterate (trailingStep expression) d.tree) env s₁ e s' →
          Gives (trailed expression) env s e s'
  | .primary d, hplaced, hdepth, env, s, rest, hs, hi => by
    obtain ⟨s₁, hg, ht⟩ := primary_complete steady he d hplaced hdepth hs hi trivial
    exact ⟨s₁, ht, fun h => gives_bind hg h⟩
  | .member target dot name, hplaced, hdepth, env, s, rest, hs, hi => by
    rw [Grammar.Trailed.tokens, List.append_assoc] at hi
    obtain ⟨s₁, ht₁, harrive⟩ := trailed_arrives steady he target
      (hplaced.of_mem (List.mem_singleton_self _)) hdepth hs hi
    obtain ⟨s₂, hstep, ht₂⟩ := memberStep_complete target.tree dot name ht₁.calm (ht₁.input hi)
      trivial
    exact ⟨s₂, ht₁.trans ht₂, fun h =>
      harrive (gives_iterate_yield (progresses_trailingStep steady) hstep h)⟩
  | .index target opener place closer, hplaced, hdepth, env, s, rest, hs, hi => by
    have htokens : (Grammar.Trailed.index target opener place closer).tokens =
        target.tokens ++ (opener.1 :: (place.tokens ++ [closer.1])) := by
      simp [Grammar.Trailed.tokens]
    rw [htokens] at hi ⊢
    rw [List.append_assoc] at hi
    obtain ⟨htarget, hneed⟩ := Nat.max_lt.1 hdepth
    obtain ⟨s₁, ht₁, harrive⟩ := trailed_arrives steady he target
      (hplaced.of_mem List.mem_cons_self) htarget hs hi
    obtain ⟨s₂, hstep, ht₂⟩ := indexStep_complete he target.tree opener place closer
      (hplaced.of_mem (List.mem_cons_of_mem _ List.mem_cons_self)) hneed ht₁.calm (ht₁.input hi)
      trivial
    exact ⟨s₂, ht₁.trans ht₂, fun h =>
      harrive (gives_iterate_yield (progresses_trailingStep steady) hstep h)⟩
  | .call callee opener arguments closer, hplaced, hdepth, env, s, rest, hs, hi => by
    have htokens : (Grammar.Trailed.call callee opener arguments closer).tokens =
        callee.tokens ++ (opener.1 :: (Grammar.elementsTokens arguments ++ [closer.1])) := by
      simp [Grammar.Trailed.tokens]
    rw [htokens] at hi ⊢
    rw [List.append_assoc] at hi
    obtain ⟨hcallee, hneed⟩ := Nat.max_lt.1 hdepth
    obtain ⟨s₁, ht₁, harrive⟩ := trailed_arrives steady he callee
      (hplaced.of_mem List.mem_cons_self) hcallee hs hi
    obtain ⟨s₂, hstep, ht₂⟩ := callStep_complete steady he callee.tree opener arguments closer
      (fun e hm => hplaced.of_mem (List.mem_cons_of_mem _ hm)) hneed ht₁.calm (ht₁.input hi) trivial
    exact ⟨s₂, ht₁.trans ht₂, fun h =>
      harrive (gives_iterate_yield (progresses_trailingStep steady) hstep h)⟩

theorem trailed_complete (steady : Steady [] expression) (he : CompletesExpr k expression)
    (d : Grammar.Trailed) (hplaced : d.tree.Placed) (hdepth : d.tree.depth < k) :
    Completes (trailed expression) d.tokens d.tree (·.trails = false) := by
  intro env s rest hs hi hstop
  obtain ⟨s₁, ht₁, harrive⟩ := trailed_arrives steady he d hplaced hdepth hs hi
  obtain ⟨t, s₂, hpeek, ht₂, hshows⟩ := peek_calm ht₁.calm env
  have hk : t.kind.trails = false := by rw [hshows.kind, ht₁.input hi]; exact hstop
  refine ⟨s₂, harrive (gives_iterate_done (progresses_trailingStep steady) ?_), ht₁.before ht₂⟩
  refine gives_bind hpeek ?_
  split
  -- no access, index or call goes on here, so the repetition ends
  · next h => rw [h] at hk; cases hk
  · next h => rw [h] at hk; cases hk
  · next h => rw [h] at hk; cases hk
  · exact gives_pure _

end Expressions

section Levels

variable {k : Nat} {inner : Form → Parser Expr}

theorem assignment_complete (hi : CompletesForms k inner) :
    CompletesExpr (k + 1) (Form.assignment inner) := by
  intro d hplaced hneed env s rest hs hin hstop
  cases d with
  | plain c =>
    obtain ⟨htrails, hbinary, hassign⟩ := Kind.endsExpression_iff.1 hstop
    obtain ⟨t, s₁, hpeek, ht₁, -⟩ := peek_calm hs env
    obtain ⟨s₂, hg, ht₂⟩ := hi.binary c hplaced (Nat.lt_of_succ_lt_succ hneed) c.bindsAt_logicalOr
      ht₁.calm (ht₁.input_eq.trans hin)
      ⟨htrails, fun op hop => absurd (hop.symm.trans hbinary) (Option.some_ne_none op)⟩
    -- what ends an expression is no operator of an assignment
    obtain ⟨u, s₃, hpeek', ht₃, hshows⟩ := peek_calm ht₂.calm env
    have hu : u.kind.assignOp? = none := by
      rw [hshows.kind, (ht₁.after ht₂).input hin]; exact hassign
    refine ⟨s₃, gives_bind hpeek (gives_bind hg (gives_bind hpeek' ?_)), ht₁.after (ht₂.before ht₃)⟩
    simp only [hu]
    exact gives_pure _
  | assign target op sign value =>
    obtain ⟨haddr, htplaced, hvplaced⟩ := Expr.placed_assign.1 hplaced
    obtain ⟨htdepth, hvneed⟩ := Nat.max_lt.1 (Nat.lt_of_succ_lt_succ hneed)
    have hin : s.input = target.tokens ++ (sign.1 :: (value.tokens ++ rest)) := by
      rw [hin]; simp [Grammar.Expr.tokens]
    -- the operator of the assignment ends the chain before it
    have hsign : (Kind.symbol op.symbol).trails = false ∧
        (Kind.symbol op.symbol).binaryOp? = none := by cases op <;> decide
    rw [← sign.2] at hsign
    obtain ⟨t, s₁, hpeek, ht₁, -⟩ := peek_calm hs env
    obtain ⟨s₂, hg, ht₂⟩ := hi.binary target htplaced htdepth target.bindsAt_logicalOr
      ht₁.calm (ht₁.input_eq.trans hin)
      ⟨hsign.1, fun op hop => absurd (hop.symm.trans hsign.2) (Option.some_ne_none op)⟩
    have hin₂ := (ht₁.after ht₂).input hin
    obtain ⟨s₃, s₄, hpeek', hsign', ht₄, hin₄⟩ := first_calm ht₂.calm hin₂ env
    obtain ⟨s₅, hvalue, ht₅⟩ := hi.whole value hvplaced hvneed ht₄.calm hin₄ hstop
    refine ⟨s₅, gives_bind hpeek (gives_bind hg (gives_bind hpeek' ?_)), ?_⟩
    · have hop : sign.1.kind.assignOp? = some op := Kind.assignOp?_eq_some_iff.2 sign.2
      simp only [hop, haddr, if_true]
      exact gives_bind hsign' (gives_bind hvalue (gives_pure _))
    · exact ht₁.after (ht₂.trans (ht₄.trans ht₅))

theorem operand_complete (steady : ∀ form, Steady [] (inner form)) (hi : CompletesForms k inner)
    (d : Grammar.Operand) (hplaced : d.tree.Placed) (hdepth : d.tree.depth < k + 1) :
    Completes (Form.operand inner) d.tokens d.tree (·.trails = false) := by
  intro env s rest hs hin hstop
  cases d with
  | trailed e =>
    -- the first token of a primary expression is no unary operator
    obtain ⟨t, r, htokens, hstart⟩ := e.starts
    have hfirst : s.input = t :: (r ++ rest) := by
      rw [hin, Grammar.Operand.tokens, htokens]; rfl
    obtain ⟨s₁, hpeek, ht₁⟩ := peek_calm_of_input hs hfirst env
    obtain ⟨s₂, hg, ht₂⟩ := trailed_complete (steady_assignment fun _ form => (steady form).mono)
      (assignment_complete hi) e hplaced hdepth ht₁.calm (ht₁.input_eq.trans hin) hstop
    refine ⟨s₂, gives_bind hpeek ?_, ht₁.after ht₂⟩
    simp only [Kind.unaryOp?_of_startsPrimary hstart]
    exact hg
  | unary op sign x =>
    obtain ⟨s₁, s₂, hpeek, hsign, ht₂, hin₂⟩ := first_calm hs hin env
    obtain ⟨s₃, hg, ht₃⟩ := hi.unary x (hplaced.of_mem (List.mem_singleton_self _))
      (Nat.lt_of_succ_lt_succ hdepth) ht₂.calm hin₂ hstop
    refine ⟨s₃, gives_bind hpeek ?_, ht₂.trans ht₃⟩
    have hop : sign.1.kind.unaryOp? = some op := Kind.unaryOp?_eq_some_iff.2 sign.2
    simp only [hop]
    refine gives_bind hsign (gives_bind hg ?_)
    exact gives_spanned (ht₃.consumes.endsAt_eq x.starts.ne_nil x.span_tree)

/-- A rule for chains comes to the point where it has read so much, if what follows does not go
into the last operand of that. -/
theorem chain_arrives (steady : ∀ form, Steady [] (inner form)) (hi : CompletesForms k inner)
    {least : Nat} (c : Grammar.Chain) : c.BindsAt least → c.tree.Placed → c.tree.depth < k + 1 →
      ∀ {env s rest}, s.Calm → s.input = c.tokens ++ rest → (firstKind rest).trails = false →
        (∀ op, (firstKind rest).binaryOp? = some op → c.tree.FitsLeft op) →
        ∃ s₁, s.Takes c.tokens s₁ ∧
          ∀ {e s'}, Gives (iterate (Form.binaryStep inner least) c.tree) env s₁ e s' →
            Gives (Form.chain inner least) env s e s' := by
  induction c using Grammar.Chain.induction with
  | single x =>
    intro _ hplaced hdepth env s rest hs hin htrails _
    obtain ⟨s₁, hg, ht⟩ := operand_complete steady hi x hplaced hdepth hs hin htrails
    exact ⟨s₁, ht, fun h => gives_bind hg h⟩
  | append l op sign r ihl ihr hfits hr =>
    intro hbinds hplaced hdepth env s rest hs hin htrails hnext
    have htree := Grammar.Chain.tree_append sign hfits hr
    rw [htree] at hplaced hdepth hnext
    rw [Grammar.Chain.tokens_append] at hin ⊢
    obtain ⟨hlbinds, hle, -⟩ := Grammar.Chain.bindsAt_append.1 hbinds
    obtain ⟨hlplaced, hrplaced⟩ := Expr.placed_binary.1 hplaced
    rw [Expr.depth_join] at hdepth
    obtain ⟨hldepth, hrdepth⟩ := Nat.max_lt.1 hdepth
    have hin : s.input = l.tokens ++ (sign.1 :: (r.tokens ++ rest)) := by rw [hin]; simp
    have hop : sign.1.kind.binaryOp? = some op := Kind.binaryOp?_eq_some_iff.2 sign.2
    have hsign : sign.1.kind.trails = false := by rw [sign.2]; cases op <;> rfl
    have hfits : ∀ op', sign.1.kind.binaryOp? = some op' → l.tree.FitsLeft op' := by
      intro op' hop'
      rw [hop] at hop'
      cases hop'
      exact hfits
    -- the chain on the left comes first, up to the operator
    obtain ⟨s₁, ht₁, harrive⟩ := ihl hlbinds hlplaced hldepth hs hin hsign hfits
    have hin₁ := ht₁.input hin
    obtain ⟨s₂, s₃, hpeek, hadvance, ht₃, hin₃⟩ := first_calm ht₁.calm hin₁ env
    -- the right operand ends before what follows, as that binds no more tightly
    obtain ⟨s₄, hg, ht₄⟩ := hi.binary r hrplaced (Nat.lt_of_succ_lt_succ hrdepth) hr ht₃.calm hin₃
      ⟨htrails, fun op' hop' => Nat.lt_succ_of_le (hnext op' hop')⟩
    refine ⟨s₄, ht₁.trans (ht₃.trans ht₄), fun h => harrive ?_⟩
    rw [htree] at h
    refine gives_iterate_yield (progresses_binaryStep steady least) (gives_bind hpeek ?_) h
    simp only [hop, if_neg (Nat.not_lt.2 hle)]
    exact gives_bind hadvance (gives_bind hg (gives_pure _))

theorem chain_complete (steady : ∀ form, Steady [] (inner form)) (hi : CompletesForms k inner)
    {least : Nat} (d : Grammar.Chain) (hplaced : d.tree.Placed) (hdepth : d.tree.depth < k + 1)
    (hbinds : d.BindsAt least) :
    Completes (Form.chain inner least) d.tokens d.tree fun kind => kind.trails = false ∧
      ∀ op, kind.binaryOp? = some op → op.rank < least := by
  intro env s rest hs hin ⟨htrails, hstop⟩
  obtain ⟨s₁, ht₁, harrive⟩ := chain_arrives steady hi d hbinds hplaced hdepth hs hin htrails
    fun op hop => d.fitsLeft_of_bindsAt hbinds (Nat.le_of_lt (hstop op hop))
  obtain ⟨t, s₂, hpeek, ht₂, hshows⟩ := peek_calm ht₁.calm env
  rw [← ht₁.input hin, ← hshows.kind] at hstop
  refine ⟨s₂, harrive (gives_iterate_done (progresses_binaryStep steady least) ?_), ht₁.before ht₂⟩
  refine gives_bind hpeek ?_
  -- the next operator, if there is one, binds too loosely for this chain
  split
  · exact gives_pure _
  · next op hop =>
    rw [if_pos (hstop op hop)]
    exact gives_pure _

/-- **One level of nesting:** if the rules of the level inside are complete, so are those of the
level around. -/
theorem around_complete (steady : ∀ form, Steady [] (inner form)) (hi : CompletesForms k inner) :
    CompletesForms (k + 1) (Form.around inner) where
  whole := assignment_complete hi
  binary := fun d => chain_complete steady hi d
  unary := operand_complete steady hi

theorem within_complete (room : Nat) : CompletesForms (room + 1) (Form.within room) := by
  induction room with
  | zero =>
    refine around_complete (fun _ => steady_tooDeep) ⟨?_, ?_, ?_⟩
    · exact fun d _ h => absurd h (Nat.not_lt_zero _)
    · exact fun d _ h => absurd h (Nat.not_lt_zero _)
    · exact fun d _ h => absurd h (Nat.not_lt_zero _)
  | succ room ih => exact around_complete (fun form => steady_within room form) ih

/-- **An expression that is derived is read,** where there is room for it. -/
theorem expression_complete (room : Nat) : CompletesExpr (room + 1) (expression room) :=
  (within_complete room).whole

end Levels

end Parser

end ArcLang
