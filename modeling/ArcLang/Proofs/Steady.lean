import ArcLang.Proofs.Input
import ArcLang.Parser.Recovery

/-!
# Rules keep to the input

Whatever a rule does, whether it succeeds or fails, it only takes tokens off the front of the
input and adds diagnostics (`Parser.Steady`); and it fails with an echo only where an error token
has been reported. The property passes from the parts of a rule to the rule.

* `Parser.Steady.bind`, `Parser.Steady.peek_bind`: rules in turn, and what follows a look.
* `Parser.steady_iterate`, `Parser.steady_recover`: repetition and recovery.
-/

namespace ArcLang

/-- The second state comes from the first by consuming tokens. -/
def State.Leads (s s' : State) : Prop := ∃ ts, s.Consumes ts s'

theorem State.Leads.refl (s : State) : s.Leads s := ⟨[], .refl s⟩

theorem State.Leads.trans {s s' s'' : State} (h : s.Leads s') (h' : s'.Leads s'') :
    s.Leads s'' := by
  obtain ⟨ts, h⟩ := h
  obtain ⟨us, h'⟩ := h'
  exact ⟨ts ++ us, h.trans h'⟩

/-- An error token among these has been reported. -/
def State.Told (s : State) (seen : List Token) : Prop :=
  ∀ t ∈ seen, t.isError = true → s.errors.errors ≠ []

theorem State.Leads.told {s s' : State} {seen : List Token} (h : s.Leads s') (ht : s.Told seen) :
    s'.Told seen := by
  obtain ⟨ts, h⟩ := h
  exact fun t hm he => h.errors_ne_nil (ht t hm he)

namespace Parser

variable {α β : Type} {seen : List Token} {p : Parser α}

/-- The rule only consumes tokens and adds diagnostics, and does not fail with an echo before an
error token has been reported; `seen` are tokens that it looked at before. -/
def Steady (seen : List Token) (p : Parser α) : Prop :=
  ∀ env s, match p env s with
    | .ok _ s' => s.Leads s'
    | .error (.syntactic _ echo) s' =>
      s.Leads s' ∧ (s.Candid → s.Told seen → echo = true → s'.errors.errors ≠ [])
    | .error (.tooDeep _) s' => s.Leads s'
    | .error (.aborted _) _ => True

theorem Steady.mono (h : Steady [] p) : Steady seen p := by
  intro env s
  have hp := h env s
  have told : s.Told [] := List.forall_mem_nil _
  revert hp
  cases p env s with
  | ok a s' => exact id
  | error e s' =>
    cases e with
    | syntactic why echo => exact fun hp => ⟨hp.1, fun hc _ => hp.2 hc told⟩
    | tooDeep why => exact id
    | aborted why => exact id

theorem Steady.leads (h : Steady seen p) {env : Setting} {s s' : State} {a : α}
    (hp : Gives p env s a s') : s.Leads s' := by
  have := h env s
  rwa [show p env s = .ok a s' from hp] at this

theorem Steady.pure (a : α) : Steady seen (Pure.pure a) := fun _ s => .refl s

theorem Steady.bind {f : α → Parser β} (hp : Steady seen p) (hf : ∀ a, Steady seen (f a)) :
    Steady seen (p >>= f) := by
  intro env s
  rw [run_bind]
  have first := hp env s
  revert first
  cases p env s with
  | error e s' =>
    cases e with
    | syntactic why echo => exact id
    | tooDeep why => exact id
    | aborted why => exact id
  | ok a s₁ =>
    intro first
    have second := hf a env s₁
    dsimp only
    revert second
    cases f a env s₁ with
    | ok b s₂ => exact first.trans
    | error e s₂ =>
      cases e with
      | syntactic why echo =>
        -- an echo of the second rule was told of before, as nothing takes diagnostics back
        intro second
        have candid : s.Candid → s₁.Candid := first.choose_spec.candid
        exact ⟨first.trans second.1, fun hc ht => second.2 (candid hc) (first.told ht)⟩
      | tooDeep why => exact first.trans
      | aborted why => exact id

theorem Steady.map (f : α → β) (hp : Steady seen p) : Steady seen (f <$> p) := by
  rw [map_eq_pure_bind]
  exact hp.bind fun a => .pure (f a)

theorem Steady.get : Steady seen (MonadState.get : Parser State) := fun _ s => .refl s

theorem Steady.get_bind {f : State → Parser β} (hf : ∀ s, Steady seen (f s)) :
    Steady seen (MonadState.get >>= f) := Steady.get.bind hf

theorem Steady.read_bind {f : Setting → Parser β} (hf : ∀ env, Steady seen (f env)) :
    Steady seen (read >>= f) := Steady.bind (fun _ s => .refl s) hf

theorem Steady.ite {c : Prop} [Decidable c] {q : Parser α} (hp : Steady seen p)
    (hq : Steady seen q) : Steady seen (if c then p else q) := by
  split
  · exact hp
  · exact hq

theorem steady_modify {f : State → State} (h : ∀ s : State, s.Leads (f s)) :
    Steady seen (modify f : Parser PUnit) := fun _ s => h s

theorem steady_peek : Steady seen peek := by
  intro env s
  rcases peek_cases env s with ⟨t, s', h, hc, -⟩ | ⟨why, s', h⟩
  · rw [h]; exact ⟨[], hc⟩
  · rw [h]; trivial

/-- What follows a look may count on the token having been seen. -/
theorem Steady.peek_bind {f : Token → Parser β} (hf : ∀ t, Steady (t :: seen) (f t)) :
    Steady seen (peek >>= f) := by
  intro env s
  rw [run_bind]
  rcases peek_cases env s with ⟨t, s₁, h, hc, ha⟩ | ⟨why, s₁, h⟩
  · rw [h]
    have second := hf t env s₁
    dsimp only
    revert second
    cases f t env s₁ with
    | ok b s₂ => exact State.Leads.trans ⟨[], hc⟩
    | error e s₂ =>
      cases e with
      | syntactic why echo =>
        intro second
        refine ⟨.trans ⟨[], hc⟩ second.1, fun candid told => second.2 (hc.candid candid) ?_⟩
        -- the token looked at is reported if it is an error token, the others were before
        intro u hu he
        rcases List.mem_cons.1 hu with rfl | hu
        · exact (hc.candid candid).ahead u ha he
        · exact hc.errors_ne_nil (told u hu he)
      | tooDeep why => exact State.Leads.trans ⟨[], hc⟩
      | aborted why => exact id
  · rw [h]; trivial

theorem steady_failAt {t : Token} {cause : Cause} (ht : t ∈ seen) :
    Steady seen (failAt t cause : Parser α) :=
  fun _ s => ⟨.refl s, fun _ told echo => told t ht echo⟩

theorem steady_tooDeep : Steady seen (tooDeep : Parser α) :=
  steady_peek.bind fun _ => .read_bind fun _ _ s => .refl s

theorem steady_advance : Steady seen advance := by
  intro env s
  rcases peek_cases env s with ⟨t, s', h, hc, ha⟩ | ⟨why, s', h⟩
  · rw [advance, run_bind, h]
    dsimp only
    cases hend : t.isEnd with
    | true => exact ⟨[], hc⟩
    | false => exact ⟨[t], hc.after (.take ha hend)⟩
  · rw [advance, run_bind, h]; trivial

theorem steady_check (kind : Kind) : Steady seen (check kind) := steady_peek.bind fun _ => .pure _

theorem steady_atEnd : Steady seen atEnd := steady_peek.bind fun _ => .pure _

theorem steady_accept (kind : Kind) : Steady seen (accept kind) :=
  (steady_check kind).bind fun _ => .ite (steady_advance.bind fun _ => .pure _) (.pure _)

theorem steady_expect (kind : Kind) (expected : String) : Steady seen (expect kind expected) :=
  (steady_check kind).bind fun _ =>
    .ite steady_advance (.peek_bind fun _ => steady_failAt List.mem_cons_self)

theorem steady_expectClosing (kind : Kind) (expected : String) (opener : Token) :
    Steady seen (expectClosing kind expected opener) :=
  (steady_check kind).bind fun _ =>
    .ite steady_advance (.peek_bind fun _ => steady_failAt List.mem_cons_self)

theorem steady_spanFrom (start : Location) : Steady seen (spanFrom start) := by
  intro env s
  rw [run_spanFrom]
  cases s.previous with
  | none => trivial
  | some t => exact .refl s

/-! ## Repetition and recovery -/

theorem steady_iterate {step : β → Parser (ForInStep β)} (h : ∀ b, Steady seen (step b)) (b : β) :
    Steady seen (iterate step b) :=
  iterate_closed (Steady seen) .pure .get .bind h b

theorem steady_report (why : Diagnostic) (echo : Bool) : Steady seen (report why echo) :=
  steady_modify fun s => by
    split
    · exact ⟨[], .note _⟩
    · exact ⟨[], (State.Consumes.record why).trans (.note _)⟩

theorem steady_moveOn (before : Nat) {resting : Parser Bool} (h : Steady seen resting) :
    Steady seen (moveOn before resting) :=
  .get_bind fun _ =>
    .ite (h.bind fun _ => .ite (.pure _) (steady_advance.bind fun _ => .pure _)) (.pure _)

/-- What recovery does behind a failure. -/
theorem steady_goOn (why : Diagnostic) (echo : Bool) {skip : Parser Unit} {resting : Parser Bool}
    (before : Nat) (hskip : Steady seen skip) (hresting : Steady seen resting) :
    Steady seen (do
      report why echo; skip; moveOn before resting; Pure.pure (none : Option α)) :=
  (steady_report why echo).bind fun _ => hskip.bind fun _ =>
    (steady_moveOn _ hresting).bind fun _ => .pure none

/-- Recovery handles failures of syntax, and passes on all others. -/
theorem recover_eq_rescue (skip : Parser Unit) (resting : Parser Bool) (env : Setting)
    (s : State) : ∃ handle : Failure → Parser (Option α),
      (∀ rule, recover rule skip resting env s = rescue (some <$> rule) handle env s) ∧
      (∀ why echo, handle (.syntactic why echo) = (do
        report why echo; skip; moveOn s.consumed resting; Pure.pure none)) ∧
      (∀ why, handle (.tooDeep why) = throw (.tooDeep why)) ∧
      ∀ why, handle (.aborted why) = throw (.aborted why) :=
  ⟨_, fun _ => rfl, fun _ _ => rfl, fun _ => rfl, fun _ => rfl⟩

/-- Recovery only fails where a failure is not a matter of syntax. -/
theorem steady_recover {rule : Parser α} {skip : Parser Unit} {resting : Parser Bool}
    (hrule : Steady seen rule) (hskip : Steady seen skip) (hresting : Steady seen resting) :
    Steady seen (recover rule skip resting) := by
  refine .get_bind fun s₀ env s => ?_
  unfold rescue
  have first := hrule.map some env s
  revert first
  cases (some <$> rule) env s with
  | ok a s₁ => exact id
  | error e s₁ =>
    cases e with
    | tooDeep why => exact id
    | aborted why => exact id
    | syntactic why echo =>
      intro first
      -- behind the failure comes a rule of its own, from the state that the failure left
      have second : Steady seen _ := steady_goOn (α := α) why echo s₀.consumed hskip hresting
      have second := second env s₁
      dsimp only
      revert second
      cases (do report why echo; skip; moveOn s₀.consumed resting; Pure.pure (none : Option α) :
          Parser (Option α)) env s₁ with
      | ok b s₂ => exact first.1.trans
      | error e s₂ =>
        cases e with
        | syntactic why echo =>
          intro second
          have candid : s.Candid → s₁.Candid := first.1.choose_spec.candid
          exact ⟨first.1.trans second.1,
            fun hc ht => second.2 (candid hc) (first.1.told ht)⟩
        | tooDeep why => exact first.1.trans
        | aborted why => exact id

theorem steady_skipStatement : Steady seen skipStatement :=
  steady_iterate (fun _ => steady_peek.bind fun _ =>
    .ite (.pure _) (steady_advance.bind fun _ => .pure _)) _

theorem steady_skipItem : Steady seen skipItem :=
  (steady_iterate (fun _ => steady_peek.bind fun _ =>
    .ite (.pure _) (.ite (.pure _) (steady_advance.bind fun _ =>
      .ite (.pure _) (.ite (.pure _) (.pure _))))) _).bind fun _ => .pure _

end Parser

end ArcLang
