import ArcLang.Proofs.Mending

/-!
# Failures inside an expression

However a rule for expressions ends, it has consumed no semicolon; and if it fails, then at a token
that it has consumed or looked at. So what is wrong with an expression is told inside of it, and
the semicolon behind it is left to recovery.

* `Parser.Confined`: the property of a rule.
* `Parser.confined_expression`: the rule for expressions has it.
-/

namespace ArcLang

namespace Parser

variable {α β : Type} {env : Setting} {s s' : State} {t : Token} {seen : List Token}

/-! ## Confined rules -/

/-- No semicolon is among the tokens. -/
def Unstopped (ts : List Token) : Prop := ∀ t ∈ ts, t.kind ≠ .symbol .semicolon

/-- The rule has succeeded without a semicolon. -/
abbrev Passes (s : State) (s' : State) : Prop := ∃ ts, s.Takes ts s' ∧ Unstopped ts

/-- The rule has failed at a token that it has consumed or looked at, or at one of those that have
been seen before. -/
def FailsAmong (seen : List Token) (s : State) (why : Diagnostic) (echo : Bool) (s' : State) :
    Prop :=
  ∃ ts t, s.Takes ts s' ∧ Unstopped ts ∧ (t ∈ seen ∨ t ∈ ts ∨ s'.Shows t) ∧
    why.place = some t.place ∧ echo = t.isError

/-- The rule has stopped because the nesting is too deep, and there is room to tell so. -/
def StopsDeep (env : Setting) (why : Diagnostic) (s' : State) : Prop :=
  why.cause = .tooDeep env.maxDepth ∧ s'.Calm

/-- The rule consumes no semicolon, and fails only at tokens that it has looked at or that have been
seen before; `fed` tells that it may count on a token having been consumed before. -/
def Confined (fed : Bool) (seen : List Token) (p : Parser α) : Prop :=
  ∀ env s, s.Calm → (fed = true → s.previous ≠ none) →
    Runs p env s (fun _ => Passes s) (FailsAmong seen s) (StopsDeep env)

/-- Confined where this token is the next one. -/
def ConfinedAt (t : Token) (fed : Bool) (seen : List Token) (p : Parser α) : Prop :=
  ∀ env s, s.Calm → s.Shows t → (fed = true → s.previous ≠ none) →
    Runs p env s (fun _ => Passes s) (FailsAmong seen s) (StopsDeep env)

theorem Unstopped.append {ts us : List Token} (h : Unstopped ts) (h' : Unstopped us) :
    Unstopped (ts ++ us) := List.forall_mem_append.2 ⟨h, h'⟩

theorem takes_nil (h : s.Calm) : s.Takes [] s := ⟨.refl s, h, rfl⟩

/-- A token that has been consumed stays behind. -/
theorem fed_of_takes {fed : Bool} {s₁ : State} {ts : List Token} (ht : s.Takes ts s₁)
    (hfed : fed = true → s.previous ≠ none) : fed = true → s₁.previous ≠ none := by
  intro h
  rw [ht.consumes.previous]
  cases ts.getLast? with
  | none => exact hfed h
  | some u => exact Option.some_ne_none u

section Confined

variable {p : Parser α} {fed : Bool}

/-- What holds of a run from a later state holds of the run from the first one. -/
theorem runs_after {s₁ : State} {ts : List Token} (ht : s.Takes ts s₁) (hts : Unstopped ts)
    (h : Runs p env s₁ (fun _ => Passes s₁) (FailsAmong seen s₁) (StopsDeep env)) :
    Runs p env s₁ (fun _ => Passes s) (FailsAmong seen s) (StopsDeep env) := by
  refine h.imp ?_ ?_ fun _ _ => id
  · rintro a s' ⟨us, hu, hus⟩
    exact ⟨ts ++ us, ht.trans hu, hts.append hus⟩
  · rintro why echo s' ⟨us, t, hu, hus, hmem, hwhy⟩
    refine ⟨ts ++ us, t, ht.trans hu, hts.append hus, ?_, hwhy⟩
    exact hmem.imp_right (.imp_left (List.mem_append_right ts))

namespace Confined

theorem pure (a : α) : Confined fed seen (Pure.pure a) := fun _ _ hs _ =>
  (gives_pure a).runs ⟨[], takes_nil hs, List.forall_mem_nil _⟩

theorem bind {f : α → Parser β} (hp : Confined fed seen p) (hf : ∀ a, Confined fed seen (f a)) :
    Confined fed seen (p >>= f) := by
  intro env s hs hfed
  refine (hp env s hs hfed).bind ?_
  rintro a s₁ ⟨ts, ht, hts⟩
  exact runs_after ht hts (hf a env s₁ ht.calm (fed_of_takes ht hfed))

theorem shown (h : Confined fed seen p) (t : Token) : ConfinedAt t fed seen p :=
  fun env s hs _ hfed => h env s hs hfed

theorem ite {c : Prop} [Decidable c] {q : Parser α} (hp : Confined fed seen p)
    (hq : Confined fed seen q) : Confined fed seen (if c then p else q) := by
  split
  · exact hp
  · exact hq

/-- What follows a look may fail at the token that was looked at, also later. -/
theorem peek_bind {f : Token → Parser β} (hf : ∀ t, ConfinedAt t fed (t :: seen) (f t)) :
    Confined fed seen (peek >>= f) := by
  intro env s hs hfed
  obtain ⟨t, s₁, hpeek, ht₁, hshows⟩ := peek_calm hs env
  have hshows₁ := ht₁.consumes.shows hshows
  refine hpeek.runs_bind (runs_after ht₁ (List.forall_mem_nil _)
    ((hf t env s₁ ht₁.calm hshows₁ (fed_of_takes ht₁ hfed)).imp ?_ ?_ ?_))
  · exact fun _ _ h => h
  · rintro why echo s' ⟨ts, u, ht, hts, hmem, hwhy⟩
    refine ⟨ts, u, ht, hts, ?_, hwhy⟩
    rcases hmem with hmem | hmem
    · rcases List.mem_cons.1 hmem with rfl | hmem
      · -- the token has been consumed, or is still the next one
        cases ts with
        | nil => exact .inr (.inr (ht.consumes.shows hshows₁))
        | cons v ts =>
          have hi := ht.consumes.input
          rw [List.cons_append] at hi
          rw [hshows₁.eq_of_input hi]
          exact .inr (.inl List.mem_cons_self)
      · exact .inl hmem
    · exact .inr hmem
  · exact fun _ _ h => h

end Confined

/-- The next token is consumed if it is no semicolon, and what follows may count on it. -/
theorem ConfinedAt.advance_bind {k : Kind} {f : Token → Parser β} (hk : t.kind = k)
    (hsemicolon : k ≠ .symbol .semicolon) (hend : k ≠ .endOfInput)
    (hf : ∀ u, Confined true seen (f u)) : ConfinedAt t fed seen (advance >>= f) := by
  intro env s hs hshows _
  obtain ⟨r, hi⟩ := hshows.input (by rw [← Bool.not_eq_true, Token.isEnd_iff, hk]; exact hend)
  obtain ⟨s₁, hadvance, ht⟩ := advance_calm hs hi env
  refine hadvance.runs_bind (runs_after ht (List.forall_mem_singleton.2 (hk ▸ hsemicolon))
    (hf t env s₁ ht.calm fun _ => ?_))
  rw [ht.consumes.previous]
  exact Option.some_ne_none t

/-- The next token is consumed if it is no semicolon. -/
theorem ConfinedAt.advance {k : Kind} (hk : t.kind = k) (hsemicolon : k ≠ .symbol .semicolon)
    (hend : k ≠ .endOfInput) : ConfinedAt t fed seen advance := by
  intro env s hs hshows _
  obtain ⟨r, hi⟩ := hshows.input (by rw [← Bool.not_eq_true, Token.isEnd_iff, hk]; exact hend)
  obtain ⟨s₁, hadvance, ht⟩ := advance_calm hs hi env
  exact hadvance.runs ⟨[t], ht, List.forall_mem_singleton.2 (hk ▸ hsemicolon)⟩

theorem confined_failAt {cause : Cause} (ht : t ∈ seen) :
    Confined fed seen (failAt t cause : Parser α) := fun _ _ hs _ =>
  ⟨[], t, takes_nil hs, List.forall_mem_nil _, .inl ht, rfl, rfl⟩

theorem confined_tooDeep : Confined fed seen (tooDeep : Parser α) := by
  intro env s hs _
  obtain ⟨t, s₁, hpeek, ht, -⟩ := peek_calm hs env
  exact hpeek.runs_bind ⟨rfl, ht.calm⟩

/-- There is an end to a span where a token has been consumed. -/
theorem confined_spanFrom (start : Location) : Confined true seen (spanFrom start) := by
  intro env s hs hfed
  obtain ⟨t, ht⟩ := Option.ne_none_iff_exists'.1 (hfed rfl)
  have hspan : Gives (spanFrom start) env s ⟨start, t.span.stop⟩ s := by
    unfold Gives
    rw [run_spanFrom, ht]
  exact hspan.runs ⟨[], takes_nil hs, List.forall_mem_nil _⟩

/-- A look at a token, and a failure there. -/
theorem confined_peek_failAt (cause : Token → Cause) :
    Confined fed seen (do let t ← peek; failAt t (cause t) : Parser α) :=
  .peek_bind fun _ => (confined_failAt List.mem_cons_self).shown _

section Kinds

variable {kind : Kind}

/-- What is done where the next token has a kind may count on that. -/
theorem confined_check_bind {f : Bool → Parser α}
    (htrue : ∀ t, t.kind = kind → ConfinedAt t fed seen (f true))
    (hfalse : Confined fed seen (f false)) : Confined fed seen (check kind >>= f) := by
  intro env s hs hfed
  obtain ⟨t, -, -, -, hshows⟩ := peek_calm hs env
  obtain ⟨s₁, hcheck, ht⟩ := check_calm hs kind env
  refine hcheck.runs_bind (runs_after ht (List.forall_mem_nil _) ?_)
  by_cases hk : firstKind s.input = kind
  · rw [decide_eq_true hk]
    exact htrue t (hshows.kind.trans hk) env s₁ ht.calm (ht.consumes.shows hshows)
      (fed_of_takes ht hfed)
  · rw [decide_eq_false hk]
    exact hfalse env s₁ ht.calm (fed_of_takes ht hfed)

variable (hsemicolon : kind ≠ .symbol .semicolon) (hend : kind ≠ .endOfInput)

include hsemicolon hend

theorem confined_accept : Confined fed seen (accept kind) :=
  confined_check_bind (fun _ hk => .advance_bind hk hsemicolon hend fun _ => .pure _) (.pure _)

theorem confined_expect (expected : String) : Confined fed seen (expect kind expected) :=
  confined_check_bind (fun _ hk => .advance hk hsemicolon hend) (confined_peek_failAt _)

theorem confined_expectClosing (expected : String) (opener : Token) :
    Confined fed seen (expectClosing kind expected opener) :=
  confined_check_bind (fun _ hk => .advance hk hsemicolon hend) (confined_peek_failAt _)

end Kinds

theorem confined_iterate {step : β → Parser (ForInStep β)} (h : ∀ b, Confined fed seen (step b))
    (b : β) : Confined fed seen (iterate step b) := by
  have hget : Confined fed seen (get : Parser State) := fun _ _ hs _ =>
    ⟨[], takes_nil hs, List.forall_mem_nil _⟩
  exact iterate_closed (Confined fed seen) .pure hget .bind h b

end Confined

/-! ## Expressions -/

section Expressions

variable {fed : Bool} {expression : Parser Expr} {inner : Form → Parser Expr}

theorem confined_delimited {element : Parser α} (h : Confined fed seen element) (opener : Token)
    {closer : Symbol} (hcloser : closer ≠ .semicolon) :
    Confined fed seen (delimited opener closer element) := by
  have hne : Kind.symbol closer ≠ .symbol .semicolon := fun heq => hcloser (Kind.symbol.inj heq)
  have hstep (acc : Array α) : Confined fed seen (delimitedStep closer element acc) :=
    confined_check_bind (fun _ _ => (Confined.pure _).shown _)
      (h.bind fun _ => (confined_accept (by decide) (by decide)).bind fun _ =>
        .ite (.pure _) (.pure _))
  exact (confined_iterate hstep _).bind fun _ =>
    (confined_expectClosing hne (by rintro ⟨⟩) _ _).bind fun _ => .pure _

theorem confined_primary (h : ∀ fed seen, Confined fed seen expression) :
    Confined fed seen (primary expression) := by
  refine .peek_bind fun t => ?_
  split
  next hk => exact ConfinedAt.advance_bind hk (by decide) (by decide) fun _ => .pure _
  next hk => exact ConfinedAt.advance_bind hk (by rintro ⟨⟩) (by rintro ⟨⟩) fun _ => .pure _
  next hk => exact ConfinedAt.advance_bind hk (by decide) (by decide) fun _ => .pure _
  next hk => exact ConfinedAt.advance_bind hk (by decide) (by decide) fun _ => .pure _
  next hk => exact ConfinedAt.advance_bind hk (by decide) (by decide) fun _ => .pure _
  next hk =>
    refine ConfinedAt.advance_bind hk (by decide) (by decide) fun opener => (h _ _).bind fun _ => ?_
    exact (confined_expectClosing (by decide) (by decide) _ opener).bind fun _ =>
      (confined_spanFrom _).bind fun _ => .pure _
  next hk =>
    refine ConfinedAt.advance_bind hk (by decide) (by decide) fun opener => ?_
    exact (confined_delimited (h _ _) opener (by decide)).bind fun _ =>
      (confined_spanFrom _).bind fun _ => .pure _
  next => exact (confined_failAt List.mem_cons_self).shown t

theorem confined_trailingStep (h : ∀ fed seen, Confined fed seen expression) (e : Expr) :
    Confined fed seen (trailingStep expression e) := by
  refine .peek_bind fun t => ?_
  split
  next hk =>
    refine ConfinedAt.advance_bind hk (by decide) (by decide) fun _ => ?_
    exact (confined_expect (by decide) (by decide) _).bind fun _ =>
      (confined_spanFrom _).bind fun _ => .pure _
  next hk =>
    refine ConfinedAt.advance_bind hk (by decide) (by decide) fun opener => (h _ _).bind fun _ => ?_
    exact (confined_expectClosing (by decide) (by decide) _ opener).bind fun _ =>
      (confined_spanFrom _).bind fun _ => .pure _
  next hk =>
    refine ConfinedAt.advance_bind hk (by decide) (by decide) fun opener => ?_
    exact (confined_delimited (h _ _) opener (by decide)).bind fun _ =>
      (confined_spanFrom _).bind fun _ => .pure _
  next => exact (Confined.pure _).shown t

theorem confined_assignment (h : ∀ fed seen form, Confined fed seen (inner form)) :
    Confined fed seen (Form.assignment inner) := by
  refine .peek_bind fun start => Confined.shown ?_ start
  refine (h _ _ _).bind fun target => .peek_bind fun t => ?_
  split
  next => exact (Confined.pure _).shown t
  next op hop =>
    have hk := Kind.assignOp?_eq_some_iff.1 hop
    split
    next =>
      refine ConfinedAt.advance_bind hk ?_ (by rintro ⟨⟩) fun _ => (h _ _ _).bind fun _ => .pure _
      cases op <;> decide
    next => exact (confined_failAt (List.mem_cons_of_mem _ List.mem_cons_self)).shown t

theorem confined_operand (h : ∀ fed seen form, Confined fed seen (inner form)) :
    Confined fed seen (Form.operand inner) := by
  refine .peek_bind fun t => ?_
  split
  next =>
    refine Confined.shown ?_ t
    exact (confined_primary fun _ _ => confined_assignment h).bind
      (confined_iterate (confined_trailingStep fun _ _ => confined_assignment h))
  next op hop =>
    have hk := Kind.unaryOp?_eq_some_iff.1 hop
    refine ConfinedAt.advance_bind hk ?_ (by rintro ⟨⟩) fun _ => (h _ _ _).bind fun _ =>
      (confined_spanFrom _).bind fun _ => .pure _
    cases op <;> decide

theorem confined_binaryStep (h : ∀ fed seen form, Confined fed seen (inner form)) (least : Nat)
    (left : Expr) : Confined fed seen (Form.binaryStep inner least left) := by
  refine .peek_bind fun t => ?_
  split
  next => exact (Confined.pure _).shown t
  next op hop =>
    have hk := Kind.binaryOp?_eq_some_iff.1 hop
    split
    next => exact (Confined.pure _).shown t
    next =>
      refine ConfinedAt.advance_bind hk ?_ (by rintro ⟨⟩) fun _ => (h _ _ _).bind fun _ => .pure _
      cases op <;> decide

theorem confined_around (h : ∀ fed seen form, Confined fed seen (inner form)) (form : Form) :
    Confined fed seen (Form.around inner form) := by
  cases form with
  | whole => exact confined_assignment h
  | binary least => exact (confined_operand h).bind (confined_iterate (confined_binaryStep h least))
  | unary => exact confined_operand h

theorem confined_within (room : Nat) (form : Form) : Confined fed seen (Form.within room form) := by
  induction room generalizing fed seen form with
  | zero => exact confined_around (fun _ _ _ => confined_tooDeep) form
  | succ room ih => exact confined_around (fun _ _ form => ih form) form

end Expressions

/-- **What is wrong with an expression is told inside of it.** -/
theorem confined_expression (room : Nat) : Confined fed seen (expression room) :=
  confined_within room .whole

end Parser

end ArcLang
