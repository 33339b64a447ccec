/-!
# Walks on a bounded stack

A tree is walked through by calls within calls, and each call that has not come back holds a frame
of the stack. There are only so many frames: a call that finds none left ends the whole walk, which
has then overflowed. What the walk did before stays done.

Frames are counted for the functions that call one another along the tree. What these ask of others
comes back without going further down, and is not counted.

* `Walk.call`: a call takes a frame.
* `Walk.Takes`: the frames that a walk takes, and what it comes to.
* `Walk.Takes.bind`, `Walk.Takes.call`, `Walk.takes_each`: the frames of walks put together.
* `Walk.OverflowsWithin`: the frames that are not enough.
-/

namespace ArcLang

/-- A call has found no frame left. -/
structure Overflow where
  deriving DecidableEq

/-- How the interpreter words an overflow. -/
def Overflow.message (_ : Overflow) : String := "maximum recursion depth exceeded"

/-- The frames that the interpreter grants, unless it is told otherwise. -/
def stackLimit : Nat := 1000

/-- A computation on a state, given the number of frames that are left. -/
abbrev Walk (σ : Type) := ReaderT Nat (EStateM Overflow σ)

namespace Walk

variable {σ α β : Type}

/-- A walk within a call, which takes a frame. -/
def call (w : Walk σ α) : Walk σ α := fun frames s =>
  match frames with
  | 0 => .error {} s
  | frames + 1 => w frames s

/-- A walk for each member of a list, one after the other, and their values. -/
def each (w : α → Walk σ β) : List α → Walk σ (List β)
  | [] => return []
  | a :: more => do
    let b ← w a
    let bs ← each w more
    return b :: bs

/-- A walk for each member of a list, one after the other. -/
def forEach (w : α → Walk σ Unit) : List α → Walk σ Unit
  | [] => return
  | a :: more => do
    w a
    forEach w more

/-- What a walk comes to, whatever it leaves of the state. -/
def outcome (w : Walk σ α) (frames : Nat) (s : σ) : Except Overflow α :=
  match w frames s with
  | .ok a _ => .ok a
  | .error why _ => .error why

/-- Members may be named as what they are taken to. -/
theorem forEach_map {γ : Type} (w : β → Walk σ Unit) (g : γ → β) (cs : List γ) :
    forEach (fun c => w (g c)) cs = forEach w (cs.map g) := by
  induction cs with
  | nil => rfl
  | cons c cs ih => rw [List.map_cons, forEach, forEach, ih]

/-- Walking through the members of a list asks nothing of their membership. -/
theorem forEach_attach (w : α → Walk σ Unit) (as : List α) :
    forEach (fun a : { a // a ∈ as } => w a.1) as.attach = forEach w as := by
  rw [forEach_map w Subtype.val, List.attach_map_subtype_val]

theorem run_bind (w : Walk σ α) (f : α → Walk σ β) (frames : Nat) (s : σ) :
    (w >>= f) frames s =
      match w frames s with
      | .ok a s' => f a frames s'
      | .error why s' => .error why s' := by
  cases h : w frames s <;> simp [bind, ReaderT.bind, EStateM.bind, h]

/-! ## Frames -/

/-- In the state `s` the walk takes `k` frames: with so many it ends with a value and a state, and
with fewer it overflows. -/
structure Takes (w : Walk σ α) (s : σ) (k : Nat) (a : α) (s' : σ) : Prop where
  ends : ∀ frames, k ≤ frames → w frames s = .ok a s'
  overflows : ∀ frames, frames < k → ∃ s'', w frames s = .error {} s''

theorem takes_pure (a : α) (s : σ) : Takes (pure a) s 0 a s :=
  ⟨fun _ _ => rfl, fun _ h => absurd h (Nat.not_lt_zero _)⟩

theorem takes_get (s : σ) : Takes get s 0 s s :=
  ⟨fun _ _ => rfl, fun _ h => absurd h (Nat.not_lt_zero _)⟩

theorem takes_modify (f : σ → σ) (s : σ) : Takes (modify f) s 0 ⟨⟩ (f s) :=
  ⟨fun _ _ => rfl, fun _ h => absurd h (Nat.not_lt_zero _)⟩

namespace Takes

variable {w : Walk σ α} {f : α → Walk σ β} {s s' s'' : σ} {k l : Nat} {a : α} {b : β}

/-- **A call takes one frame more** than what is done within it. -/
theorem call (h : Takes w s k a s') : Takes w.call s (k + 1) a s' where
  ends
    | 0, hk => absurd hk (Nat.not_succ_le_zero k)
    | frames + 1, hk => h.ends frames (Nat.le_of_succ_le_succ hk)
  overflows
    | 0, _ => ⟨s, rfl⟩
    | frames + 1, hk => h.overflows frames (Nat.lt_of_succ_lt_succ hk)

/-- **Two walks in turn take as many frames as the one that takes more.** -/
theorem bind (h : Takes w s k a s') (h' : Takes (f a) s' l b s'') :
    Takes (w >>= f) s (max k l) b s'' where
  ends frames hk := by
    rw [run_bind, h.ends frames (Nat.le_trans (Nat.le_max_left k l) hk)]
    exact h'.ends frames (Nat.le_trans (Nat.le_max_right k l) hk)
  overflows frames hk := by
    rw [run_bind]
    by_cases hfirst : frames < k
    · obtain ⟨t, ht⟩ := h.overflows frames hfirst
      rw [ht]
      exact ⟨t, rfl⟩
    · rw [h.ends frames (Nat.le_of_not_lt hfirst)]
      exact h'.overflows frames (by omega)

/-- What is made of the value of a walk takes no frames of its own. -/
theorem map (h : Takes w s k a s') (g : α → β) :
    Takes (do let a ← w; return g a) s k (g a) s' :=
  Nat.max_zero k ▸ h.bind (takes_pure (g a) s')

/-- A change of the state before a walk takes no frames. -/
theorem after {f : PUnit → Walk σ β} {g : σ → σ} (h : Takes (f ⟨⟩) (g s) l b s'') :
    Takes (modify g >>= f) s l b s'' :=
  Nat.zero_max l ▸ (takes_modify g s).bind h

/-- A change of the state behind a walk takes no frames. -/
theorem andModify (h : Takes w s k a s') (g : σ → σ) :
    Takes (do let _ ← w; modify g) s k ⟨⟩ (g s') :=
  Nat.max_zero k ▸ h.bind (takes_modify g s')

/-- A change of the state that the value of a walk is for. -/
theorem modifyWith (h : Takes w s k a s') (g : α → σ → σ) :
    Takes (do let a ← w; modify (g a)) s k ⟨⟩ (g a s') :=
  Nat.max_zero k ▸ h.bind (takes_modify (g a) s')

theorem of_eq {t : σ} (h : Takes w s k a s') (hk : k = l) (hs : s' = t) : Takes w s l a t :=
  hk ▸ hs ▸ h

/-- A walk that overflows has found too few frames. -/
theorem lt_of_overflow (h : Takes w s k a s') {frames : Nat} {why : Overflow}
    (hover : w frames s = .error why s'') : frames < k :=
  Nat.lt_of_not_le fun henough => by
    rw [h.ends frames henough] at hover
    cases hover

/-- **What a walk comes to** depends on whether there are frames enough. -/
theorem outcome_eq (h : Takes w s k a s') (frames : Nat) :
    w.outcome frames s = if k ≤ frames then .ok a else .error {} := by
  unfold outcome
  by_cases hk : k ≤ frames
  · rw [h.ends frames hk, if_pos hk]
  · obtain ⟨t, ht⟩ := h.overflows frames (Nat.lt_of_not_le hk)
    rw [ht, if_neg hk]

end Takes

/-- With so many frames or fewer the walk overflows, and has not changed the state by then. -/
def OverflowsWithin (w : Walk σ α) (s : σ) (k : Nat) : Prop :=
  ∀ frames ≤ k, w frames s = .error {} s

theorem overflowsWithin_call (w : Walk σ α) (s : σ) : OverflowsWithin w.call s 0 :=
  fun frames hframes => by
    obtain rfl := Nat.le_zero.1 hframes
    rfl

namespace OverflowsWithin

variable {w : Walk σ α} {s : σ} {k : Nat}

/-- What overflows first, overflows before anything else is done. -/
theorem bind (h : OverflowsWithin w s k) (f : α → Walk σ β) : OverflowsWithin (w >>= f) s k :=
  fun frames hframes => by rw [run_bind, h frames hframes]

theorem call (h : OverflowsWithin w s k) : OverflowsWithin w.call s (k + 1)
  | 0, _ => rfl
  | frames + 1, hframes => h frames (Nat.le_of_succ_le_succ hframes)

theorem outcome_eq (h : OverflowsWithin w s k) {frames : Nat} (hframes : frames ≤ k) :
    w.outcome frames s = .error {} := by
  unfold outcome
  rw [h frames hframes]

end OverflowsWithin

/-- The most frames that any member of a list takes. -/
def most (k : α → Nat) (as : List α) : Nat := as.foldr (fun a n => max (k a) n) 0

theorem most_attach (k : α → Nat) (as : List α) :
    most (fun a : { a // a ∈ as } => k a.1) as.attach = most k as := by
  unfold most
  rw [List.foldr_attach (f := fun a n => max (k a) n)]

/-- **A walk for each member takes as many frames as the one that takes most.** -/
theorem takes_each {w : α → Walk σ β} {k : α → Nat} {g : α → β} {s : σ} {as : List α}
    (h : ∀ a ∈ as, Takes (w a) s (k a) (g a) s) : Takes (each w as) s (most k as) (as.map g) s := by
  induction as with
  | nil => exact takes_pure [] s
  | cons a as ih =>
    obtain ⟨ha, has⟩ := List.forall_mem_cons.1 h
    exact ha.bind ((ih has).map _)

/-- **A walk for each member, one after the other,** where each keeps what the next one asks of the
state. -/
theorem takes_forEach {w : α → Walk σ Unit} {k : α → Nat} {step : σ → α → σ} {P : σ → Prop}
    {s : σ} {as : List α}
    (h : ∀ a ∈ as, ∀ s, P s → Takes (w a) s (k a) () (step s a) ∧ P (step s a)) (hs : P s) :
    Takes (forEach w as) s (most k as) () (as.foldl step s) := by
  induction as generalizing s with
  | nil => exact takes_pure () s
  | cons a as ih =>
    obtain ⟨ha, has⟩ := List.forall_mem_cons.1 h
    obtain ⟨hfirst, hnext⟩ := ha s hs
    exact hfirst.bind (ih has hnext)

end Walk

end ArcLang
