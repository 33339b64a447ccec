import ArcLang.Proofs.Steps

/-!
# Runs without faults

Where the stream holds no faults and the collector has room, looking and consuming always succeed
and record nothing. The rules are run forward from here: a rule takes tokens (`State.Takes`) if it
consumes them and leaves such a state behind.

* `Parser.peek_calm`, `Parser.advance_calm`: looking and consuming.
* `Parser.gives_iterate_done`, `Parser.gives_iterate_yield`: repetitions, one step at a time.
-/

namespace ArcLang

namespace State

/-- The stream holds no faults, and the collector has room. -/
structure Calm (s : State) : Prop where
  faultless : Scan.faults s.pending = []
  roomy : s.errors.isFull = false

/-- From the one state to the other, exactly these tokens have been consumed and nothing has been
recorded; no faults are to come. -/
structure Takes (s : State) (ts : List Token) (s' : State) : Prop where
  consumes : s.Consumes ts s'
  calm : s'.Calm
  errors : s'.errors = s.errors

variable {s s' s'' : State} {t : Token} {ts us rest : List Token}

theorem Takes.trans (h : s.Takes ts s') (h' : s'.Takes us s'') : s.Takes (ts ++ us) s'' :=
  ⟨h.consumes.trans h'.consumes, h'.calm, h'.errors.trans h.errors⟩

/-- Nothing taken, and then something. -/
theorem Takes.after (h : s.Takes [] s') (h' : s'.Takes us s'') : s.Takes us s'' := h.trans h'

/-- Something taken, and then nothing. -/
theorem Takes.before (h : s.Takes ts s') (h' : s'.Takes [] s'') : s.Takes ts s'' := by
  simpa using h.trans h'

/-- What is taken is taken off the front of the input. -/
theorem Takes.input (h : s.Takes ts s') (hs : s.input = ts ++ rest) : s'.input = rest := by
  have := h.consumes.input
  rw [hs] at this
  exact (List.append_cancel_left this).symm

theorem Takes.input_cons (h : s.Takes [t] s') (hs : s.input = t :: rest) : s'.input = rest :=
  h.input hs

theorem Takes.input_eq (h : s.Takes [] s') : s'.input = s.input := h.consumes.input_eq

theorem Takes.note (h : s.Calm) (e : Event) : s.Takes [] (s.note e) :=
  ⟨.note e, ⟨h.faultless, h.roomy⟩, rfl⟩

end State

namespace Parser

open State (Calm Takes)

variable {α β : Type} {env : Setting} {s s' : State} {t : Token} {r : List Token}

theorem gives_bind {p : Parser α} {f : α → Parser β} {a : α} {b : β} {s₁ : State}
    (h : Gives p env s a s₁) (h' : Gives (f a) env s₁ b s') : Gives (p >>= f) env s b s' := by
  unfold Gives at h h' ⊢
  rw [run_bind, h]
  exact h'

theorem gives_map {p : Parser α} (f : α → β) {a : α} (h : Gives p env s a s') :
    Gives (f <$> p) env s (f a) s' := by
  unfold Gives at h ⊢
  rw [run_map, h]

theorem gives_pure (a : α) : Gives (pure a : Parser α) env s a s := rfl

/-! ## Looking and consuming -/

/-- Looking succeeds and changes nothing of the input. -/
theorem peek_calm (h : s.Calm) (env : Setting) :
    ∃ t s', Gives peek env s t s' ∧ s.Takes [] s' ∧ s.Shows t := by
  obtain ⟨t, s', ht, hfaults, herrors⟩ := peek_faultless h.faultless env
  obtain ⟨hc, hs, -⟩ := peek_gives ht
  exact ⟨t, s', ht, ⟨hc, ⟨hfaults, by rw [herrors]; exact h.roomy⟩, herrors⟩, hs⟩

theorem peek_calm_of_input (h : s.Calm) (hi : s.input = t :: r) (env : Setting) :
    ∃ s', Gives peek env s t s' ∧ s.Takes [] s' := by
  obtain ⟨u, s', hu, ht, hs⟩ := peek_calm h env
  rw [hs.eq_of_input hi] at hu
  exact ⟨s', hu, ht⟩

/-- **Consuming takes the first token of the input.** -/
theorem advance_calm (h : s.Calm) (hi : s.input = t :: r) (env : Setting) :
    ∃ s', Gives advance env s t s' ∧ s.Takes [t] s' := by
  obtain ⟨s₁, hpeek, ht⟩ := peek_calm_of_input h hi env
  have hend : t.isEnd = false := State.not_isEnd_of_mem_input (hi ▸ List.mem_cons_self)
  have hadvance : Gives advance env s t
      { s₁ with ahead := none, previous := some t, consumed := s₁.consumed + 1 } := by
    refine gives_bind hpeek ?_
    rw [hend]
    rfl
  obtain ⟨-, hc⟩ := advance_gives hadvance
  rw [hend] at hc
  exact ⟨_, hadvance, hc, ⟨ht.calm.faultless, ht.calm.roomy⟩, ht.errors⟩

/-- A token that is looked at and then consumed. -/
theorem first_calm (h : s.Calm) (hi : s.input = t :: r) (env : Setting) : ∃ s₁ s₂,
    Gives peek env s t s₁ ∧ Gives advance env s₁ t s₂ ∧ s.Takes [t] s₂ ∧ s₂.input = r := by
  obtain ⟨s₁, hpeek, ht₁⟩ := peek_calm_of_input h hi env
  obtain ⟨s₂, hadvance, ht₂⟩ := advance_calm ht₁.calm (ht₁.input_eq.trans hi) env
  have ht := ht₁.after ht₂
  exact ⟨s₁, s₂, hpeek, hadvance, ht, ht.input_cons hi⟩

theorem check_calm (h : s.Calm) (kind : Kind) (env : Setting) :
    ∃ s', Gives (check kind) env s (decide (firstKind s.input = kind)) s' ∧ s.Takes [] s' := by
  obtain ⟨t, s', ht, htakes, hs⟩ := peek_calm h env
  refine ⟨s', ?_, htakes⟩
  rw [← hs.kind]
  exact gives_bind ht (gives_pure _)

theorem atEnd_calm (h : s.Calm) (env : Setting) :
    ∃ s', Gives atEnd env s (decide (s.input = [])) s' ∧ s.Takes [] s' := by
  obtain ⟨t, s', ht, htakes, hs⟩ := peek_calm h env
  have hatEnd : Gives atEnd env s t.isEnd s' := gives_bind ht (gives_pure _)
  have hb : t.isEnd = decide (s.input = []) := by
    rw [Bool.eq_iff_iff, decide_eq_true_iff]; exact (atEnd_gives hatEnd).2
  exact ⟨s', hb ▸ hatEnd, htakes⟩

theorem accept_taken (h : s.Calm) (hi : s.input = t :: r) {kind : Kind} (hk : t.kind = kind)
    (env : Setting) : ∃ s', Gives (accept kind) env s true s' ∧ s.Takes [t] s' := by
  obtain ⟨s₁, hcheck, ht⟩ := check_calm h kind env
  obtain ⟨s₂, hadvance, ht'⟩ := advance_calm ht.calm (ht.input_eq.trans hi) env
  rw [hi, firstKind_cons, decide_eq_true hk] at hcheck
  exact ⟨s₂, gives_bind hcheck (gives_bind hadvance (gives_pure true)), ht.after ht'⟩

theorem accept_refused (h : s.Calm) {kind : Kind} (hk : firstKind s.input ≠ kind) (env : Setting) :
    ∃ s', Gives (accept kind) env s false s' ∧ s.Takes [] s' := by
  obtain ⟨s₁, hcheck, ht⟩ := check_calm h kind env
  rw [decide_eq_false hk] at hcheck
  exact ⟨s₁, gives_bind hcheck (gives_pure false), ht⟩

theorem expect_calm (h : s.Calm) (hi : s.input = t :: r) {kind : Kind} (hk : t.kind = kind)
    (expected : String) (env : Setting) :
    ∃ s', Gives (expect kind expected) env s t s' ∧ s.Takes [t] s' := by
  obtain ⟨s₁, hcheck, ht⟩ := check_calm h kind env
  obtain ⟨s₂, hadvance, ht'⟩ := advance_calm ht.calm (ht.input_eq.trans hi) env
  rw [hi, firstKind_cons, decide_eq_true hk] at hcheck
  exact ⟨s₂, gives_bind hcheck hadvance, ht.after ht'⟩

theorem expectClosing_calm (h : s.Calm) (hi : s.input = t :: r) {kind : Kind}
    (hk : t.kind = kind) (expected : String) (opener : Token) (env : Setting) :
    ∃ s', Gives (expectClosing kind expected opener) env s t s' ∧ s.Takes [t] s' := by
  obtain ⟨s₁, hcheck, ht⟩ := check_calm h kind env
  obtain ⟨s₂, hadvance, ht'⟩ := advance_calm ht.calm (ht.input_eq.trans hi) env
  rw [hi, firstKind_cons, decide_eq_true hk] at hcheck
  exact ⟨s₂, gives_bind hcheck hadvance, ht.after ht'⟩

/-- A rule that ends by making something of the span it covers. -/
theorem gives_spanned {start stop : Location} {f : Span → α} (h : s.EndsAt stop) :
    Gives (do return f (← spanFrom start)) env s (f ⟨start, stop⟩) s := by
  have hspan : Gives (spanFrom start) env s ⟨start, stop⟩ s := by
    unfold State.EndsAt at h
    unfold Gives
    rw [run_spanFrom]
    cases hs : s.previous with
    | none => rw [hs] at h; cases h
    | some t =>
      rw [hs] at h
      cases h
      rfl
  exact gives_bind hspan (gives_pure _)

/-! ## Failures -/

section Failures

variable {p : Parser α} {e : Failure} {why : Diagnostic}

theorem error_bind {f : α → Parser β} (h : p env s = .error e s') :
    (p >>= f) env s = .error e s' := by
  rw [run_bind, h]

theorem error_map {f : α → β} (h : p env s = .error e s') : (f <$> p) env s = .error e s' := by
  rw [run_map, h]

end Failures

/-! ## Repetition -/

section Repetition

variable {step : β → Parser (ForInStep β)} {b b₁ b' : β} {s₁ : State}

theorem gives_iterate_done (hstep : Progresses step) (h : Gives (step b) env s (.done b') s') :
    Gives (iterate step b) env s b' s' := by
  unfold Gives at h ⊢
  rw [iterate_eq hstep, h]

theorem gives_iterate_yield (hstep : Progresses step) (h : Gives (step b) env s (.yield b₁) s₁)
    (h' : Gives (iterate step b₁) env s₁ b' s') : Gives (iterate step b) env s b' s' := by
  unfold Gives at h h' ⊢
  rw [iterate_eq hstep, h]
  exact h'

end Repetition

end Parser

end ArcLang
