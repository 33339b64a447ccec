import ArcLang.Parser.State

/-!
# Repetition

Lists, chains of operators and recovery all repeat a step until it is done. Every step that asks
for another round consumes a token (`Progresses`), so there are never more rounds than tokens left;
`iterate` allows so many and one more, by going along the tokens that the stream still holds.

* `Parser.iterate_eq`: if the step progresses and nothing is consumed backwards, a repetition is
  one step and, where that asks for it, the repetition from there.
* `Parser.iterate_rounds`: induction along the rounds of a repetition.
* `Parser.iterate_related`: repetitions relate as their steps do.
-/

namespace ArcLang.Parser

/-- Repeats a step until it is done, for at most so many rounds. -/
def iterateFor (step : β → Parser (ForInStep β)) : Nat → β → Parser β
  | 0, b => return b
  | rounds + 1, b => do
    match ← step b with
    | .done b => return b
    | .yield b => iterateFor step rounds b

/-- Repeats a step until it is done, for at most one round for each scan and two more. -/
def iterateAlong (step : β → Parser (ForInStep β)) : List Scan → β → Parser β
  | [], b => iterateFor step 2 b
  | _ :: scans, b => do
    match ← step b with
    | .done b => return b
    | .yield b => iterateAlong step scans b

theorem iterateAlong_eq (step : β → Parser (ForInStep β)) (scans : List Scan) (b : β) :
    iterateAlong step scans b = iterateFor step (scans.length + 2) b := by
  induction scans generalizing b with
  | nil => rfl
  | cons scan scans ih =>
    rw [iterateAlong, List.length_cons, Nat.add_right_comm, iterateFor]
    simp only [ih]

/-- Repeats a step until it is done. -/
def iterate (step : β → Parser (ForInStep β)) (b : β) : Parser β := do
  iterateAlong step (← get).pending b

/-- A step that asks for another round has left fewer tokens to consume. -/
def Progresses (step : β → Parser (ForInStep β)) : Prop :=
  ∀ env b s b' s', step b env s = .ok (.yield b') s' → s'.remaining < s.remaining

theorem run_iterateFor_succ (step : β → Parser (ForInStep β)) (rounds : Nat) (b : β)
    (env : Setting) (s : State) :
    iterateFor step (rounds + 1) b env s =
      match step b env s with
      | .ok (.done b') s' => .ok b' s'
      | .ok (.yield b') s' => iterateFor step rounds b' env s'
      | .error e s' => .error e s' := by
  rw [iterateFor, run_bind]
  rcases step b env s with ⟨_ | _, s'⟩ | _ <;> rfl

/-- Rounds beyond the tokens left change nothing. -/
theorem run_iterateFor_of_remaining_lt {step : β → Parser (ForInStep β)} (h : Progresses step)
    {m n : Nat} {b : β} {env : Setting} {s : State} (hm : s.remaining < m) (hn : s.remaining < n) :
    iterateFor step m b env s = iterateFor step n b env s := by
  induction m generalizing n b s with
  | zero => omega
  | succ m ih =>
    obtain ⟨n, rfl⟩ : ∃ k, n = k + 1 := ⟨n - 1, by omega⟩
    rw [run_iterateFor_succ, run_iterateFor_succ]
    cases hs : step b env s with
    | error => rfl
    | ok r s' =>
      cases r with
      | done => rfl
      | yield b' =>
        have := h env b s b' s' hs
        exact ih (by omega) (by omega)

/-- **A repetition is one step,** and the repetition from there if the step asks for it. -/
theorem iterate_eq {step : β → Parser (ForInStep β)} (h : Progresses step) (b : β)
    (env : Setting) (s : State) :
    iterate step b env s =
      match step b env s with
      | .ok (.done b') s' => .ok b' s'
      | .ok (.yield b') s' => iterate step b' env s'
      | .error e s' => .error e s' := by
  have unfolded (b : β) (s : State) :
      iterate step b env s = iterateFor step (s.pending.length + 2) b env s := by
    rw [← iterateAlong_eq]; rfl
  have enough := State.remaining_le
  rw [unfolded, run_iterateFor_succ]
  cases hs : step b env s with
  | error => rfl
  | ok r s' =>
    cases r with
    | done => rfl
    | yield b' =>
      have fewer := h env b s b' s' hs
      have before := enough s
      have after := enough s'
      simp only [unfolded]
      exact run_iterateFor_of_remaining_lt h (by omega) (by omega)

/-- **Induction along a repetition:** from a last step, and from the repetition behind a step. -/
theorem iterate_rounds {step : β → Parser (ForInStep β)} (h : Progresses step) (env : Setting)
    {motive : β → State → Prop}
    (error : ∀ b s e s', step b env s = .error e s' → iterate step b env s = .error e s' →
      motive b s)
    (done : ∀ b s b' s', step b env s = .ok (.done b') s' → iterate step b env s = .ok b' s' →
      motive b s)
    (yield : ∀ b s b₁ s₁, step b env s = .ok (.yield b₁) s₁ →
      iterate step b env s = iterate step b₁ env s₁ → motive b₁ s₁ → motive b s)
    (b : β) (s : State) : motive b s := by
  -- by the tokens left, of which each further round has fewer
  induction hn : s.remaining using Nat.strongRecOn generalizing b s with
  | ind n ih =>
    have hiterate := iterate_eq h b env s
    cases hs : step b env s with
    | error e s' =>
      rw [hs] at hiterate
      exact error b s e s' hs hiterate
    | ok r s' =>
      rw [hs] at hiterate
      cases r with
      | done b' => exact done b s b' s' hs hiterate
      | yield b' =>
        have fewer := h env b s b' s' hs
        exact yield b s b' s' hs hiterate (ih s'.remaining (by omega) b' s' rfl)

/-- **Repetitions relate as their steps do,** if a relation holds of rules that are put together
from related ones. -/
theorem iterate_related (R : {γ : Type} → Parser γ → Parser γ → Prop)
    (pure : ∀ {γ : Type} (a : γ), R (pure a) (pure a)) (get : R (get : Parser State) get)
    (bind : ∀ {γ δ : Type} {p q : Parser γ} {f g : γ → Parser δ}, R p q →
      (∀ a, R (f a) (g a)) → R (p >>= f) (q >>= g))
    {step step' : β → Parser (ForInStep β)} (h : ∀ b, R (step b) (step' b)) (b : β) :
    R (iterate step b) (iterate step' b) := by
  have rounds (n : Nat) (b : β) : R (iterateFor step n b) (iterateFor step' n b) := by
    induction n generalizing b with
    | zero => exact pure b
    | succ n ih =>
      refine bind (h b) fun next => ?_
      cases next with
      | done b => exact pure b
      | yield b => exact ih b
  refine bind get fun s => ?_
  rw [iterateAlong_eq, iterateAlong_eq]
  exact rounds _ b

/-- A repetition is as its steps are, if all that is put together from such rules is. -/
theorem iterate_closed (P : {γ : Type} → Parser γ → Prop)
    (pure : ∀ {γ : Type} (a : γ), P (pure a)) (get : P (get : Parser State))
    (bind : ∀ {γ δ : Type} {p : Parser γ} {f : γ → Parser δ}, P p → (∀ a, P (f a)) → P (p >>= f))
    {step : β → Parser (ForInStep β)} (h : ∀ b, P (step b)) (b : β) : P (iterate step b) :=
  @iterate_related β (fun p _ => P p) pure get bind step step h b

end ArcLang.Parser
