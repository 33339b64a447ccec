import Mathlib.Data.List.Forall2
import ArcLang.Proofs.Completeness
import ArcLang.Proofs.ProgramSoundness

/-!
# Runs that mend

The rules with recovery inside pass over broken lines and report each of them. Their runs are
followed forward, as runs without faults are: how a run may end is told of its end state, and a
repetition is followed round by round, where a round reads a member or passes over a line.

* `Parser.Runs`: how a run ends, whether it succeeds, fails, or stops because of the nesting.
* `State.Mends`: tokens are consumed, among them some lines with one diagnostic each.
* `Parser.Restores`: what a rule reads with lines in between.
* `Parser.runs_rounds`: a repetition, one round after the other.
-/

namespace ArcLang

/-! ## Mending -/

/-- The diagnostic is at one of the tokens. -/
def Blames (line : List Token) (d : Diagnostic) : Prop := ∃ t ∈ line, d.place = some t.place

namespace State

/-- These tokens have been consumed, and for each of the lines a diagnostic has been recorded. -/
structure Mends (s : State) (ts : List Token) (lines : List (List Token)) (s' : State) : Prop where
  consumes : s.Consumes ts s'
  errors : ∃ ds, s'.errors.errors = s.errors.errors ++ ds ∧ List.Forall₂ Blames lines ds

/-- The stream holds no faults, and with so many more diagnostics the collector is not full. -/
structure Spares (n : Nat) (s : State) : Prop where
  faultless : Scan.faults s.pending = []
  roomy : s.errors.errors.length + n < s.errors.capacity

variable {s s' s'' : State} {ts us : List Token} {lines lines' : List (List Token)} {m n : Nat}

theorem Spares.mono (h : s.Spares n) (hle : m ≤ n) : s.Spares m where
  faultless := h.faultless
  roomy := by
    have := h.roomy
    omega

theorem Spares.calm (h : s.Spares n) : s.Calm where
  faultless := h.faultless
  roomy := by
    have := h.roomy
    rw [← Bool.not_eq_true, Collector.isFull_iff]
    omega

theorem Calm.spares (h : s.Calm) : s.Spares 0 where
  faultless := h.faultless
  roomy := by
    have := h.roomy
    rw [← Bool.not_eq_true, Collector.isFull_iff] at this
    omega

theorem Mends.refl (s : State) : s.Mends [] [] s := ⟨.refl s, [], (List.append_nil _).symm, .nil⟩

theorem Takes.mends (h : s.Takes ts s') : s.Mends ts [] s' :=
  ⟨h.consumes, [], by rw [h.errors, List.append_nil], .nil⟩

theorem Mends.trans (h : s.Mends ts lines s') (h' : s'.Mends us lines' s'') :
    s.Mends (ts ++ us) (lines ++ lines') s'' := by
  obtain ⟨hc, ds, hds, hblames⟩ := h
  obtain ⟨hc', ds', hds', hblames'⟩ := h'
  refine ⟨hc.trans hc', ds ++ ds', ?_, List.rel_append hblames hblames'⟩
  rw [hds', hds, List.append_assoc]

/-- Tokens without faults, and then others. -/
theorem Takes.mends_trans (h : s.Takes ts s') (h' : s'.Mends us lines s'') :
    s.Mends (ts ++ us) lines s'' := h.mends.trans h'

/-- Lines, and then nothing but tokens without faults. -/
theorem Mends.takes (h : s.Mends ts lines s') (h' : s'.Takes us s'') :
    s.Mends (ts ++ us) lines s'' := by
  simpa using h.trans h'.mends

/-- Lines, and then nothing. -/
theorem Mends.before (h : s.Mends ts lines s') (h' : s'.Takes [] s'') : s.Mends ts lines s'' := by
  simpa using h.takes h'

/-- Each line takes up the room of its diagnostic. -/
theorem Mends.spares (h : s.Mends ts lines s') (hs : s.Spares (lines.length + n)) :
    s'.Spares n := by
  obtain ⟨hc, ds, hds, hblames⟩ := h
  refine ⟨hc.faultless hs.faultless, ?_⟩
  have hroomy := hs.roomy
  have hlength := hblames.length_eq
  rw [hds, hc.capacity, List.length_append]
  push_cast
  omega

theorem Takes.spares (h : s.Takes ts s') (hs : s.Spares n) : s'.Spares n :=
  h.mends.spares (by simpa using hs)

theorem Mends.input {rest : List Token} (h : s.Mends ts lines s') (hs : s.input = ts ++ rest) :
    s'.input = rest := by
  have := h.consumes.input
  rw [hs] at this
  exact (List.append_cancel_left this).symm

/-- Where there were no lines, the tokens have been taken. -/
theorem Mends.takes_of_nil (h : s.Mends ts [] s') (hs : s.Calm) : s.Takes ts s' := by
  have hcalm : s'.Calm := (h.spares (n := 0) hs.spares).calm
  obtain ⟨hc, ds, hds, hblames⟩ := h
  cases hblames
  rw [List.append_nil] at hds
  refine ⟨hc, hcalm, ?_⟩
  have hcapacity := hc.capacity
  cases h : s.errors
  cases h' : s'.errors
  rw [h, h'] at hcapacity hds
  congr 1
  exact Array.toList_inj.1 hds

end State

namespace Parser

open State (Calm Takes Mends Spares)

variable {α β : Type} {env : Setting} {s s' : State} {ts rest : List Token}

/-! ## Ends of runs -/

/-- The run is not given up; one thing holds where it succeeds, one where the tokens do not fit, and
one where the nesting is too deep. -/
def Runs (p : Parser α) (env : Setting) (s : State) (gives : α → State → Prop)
    (fails : Diagnostic → Bool → State → Prop) (stops : Diagnostic → State → Prop) : Prop :=
  match p env s with
  | .ok a s' => gives a s'
  | .error (.syntactic why echo) s' => fails why echo s'
  | .error (.tooDeep why) s' => stops why s'
  | .error (.aborted _) _ => False

/-- No run stops. -/
abbrev Never (_ : Diagnostic) (_ : State) : Prop := False

section Runs

variable {p : Parser α} {gives gives' : α → State → Prop}
  {fails fails' : Diagnostic → Bool → State → Prop} {stops stops' : Diagnostic → State → Prop}

theorem Gives.runs {a : α} (h : Gives p env s a s') (hgives : gives a s') :
    Runs p env s gives fails stops := by
  unfold Gives at h
  unfold Runs
  rw [h]
  exact hgives

theorem runs_of_error {why : Diagnostic} {echo : Bool}
    (h : p env s = .error (.syntactic why echo) s') (hfails : fails why echo s') :
    Runs p env s gives fails stops := by
  unfold Runs
  rw [h]
  exact hfails

theorem Runs.imp (h : Runs p env s gives fails stops)
    (hgives : ∀ a s', gives a s' → gives' a s')
    (hfails : ∀ why echo s', fails why echo s' → fails' why echo s')
    (hstops : ∀ why s', stops why s' → stops' why s') : Runs p env s gives' fails' stops' := by
  unfold Runs at h ⊢
  cases hp : p env s with
  | ok a s' => rw [hp] at h; exact hgives a s' h
  | error e s' =>
    rw [hp] at h
    cases e with
    | syntactic why echo => exact hfails why echo s' h
    | tooDeep why => exact hstops why s' h
    | aborted why => exact h

/-- **Two rules in turn:** the second runs from where the first succeeds. -/
theorem Runs.bind {f : α → Parser β} {gives' : β → State → Prop}
    (h : Runs p env s gives fails stops)
    (hf : ∀ a s₁, gives a s₁ → Runs (f a) env s₁ gives' fails stops) :
    Runs (p >>= f) env s gives' fails stops := by
  unfold Runs at h
  cases hp : p env s with
  | ok a s₁ =>
    rw [hp] at h
    have hrest := hf a s₁ h
    unfold Runs at hrest ⊢
    rw [run_bind, hp]
    exact hrest
  | error e s₁ =>
    rw [hp] at h
    unfold Runs
    rw [run_bind, hp]
    cases e <;> exact h

/-- A first rule that is known to succeed. -/
theorem Gives.runs_bind {f : α → Parser β} {a : α} {s₁ : State} {gives' : β → State → Prop}
    (h : Gives p env s a s₁) (hf : Runs (f a) env s₁ gives' fails stops) :
    Runs (p >>= f) env s gives' fails stops := by
  unfold Gives at h
  unfold Runs at hf ⊢
  rw [run_bind, h]
  exact hf

theorem Runs.map {f : α → β} {gives' : β → State → Prop} (h : Runs p env s gives fails stops)
    (hf : ∀ a s₁, gives a s₁ → gives' (f a) s₁) :
    Runs (f <$> p) env s gives' fails stops := by
  have hmap : (f <$> p) env s = (p >>= fun a => pure (f a)) env s := by
    rw [run_map, run_bind]
    rfl
  have hbind : Runs (p >>= fun a => pure (f a)) env s gives' fails stops :=
    h.bind fun a s₁ ha => (gives_pure (f a)).runs (hf a s₁ ha)
  unfold Runs at hbind ⊢
  rw [hmap]
  exact hbind

/-- A run that neither fails nor stops. -/
theorem Runs.exists_gives (h : Runs p env s gives (fun _ _ _ => False) Never) :
    ∃ a s', Gives p env s a s' ∧ gives a s' := by
  unfold Runs at h
  cases hp : p env s with
  | ok a s' =>
    rw [hp] at h
    exact ⟨a, s', hp, h⟩
  | error e s' =>
    rw [hp] at h
    cases e <;> exact h.elim

/-- A run that neither succeeds nor stops. -/
theorem Runs.exists_fails (h : Runs p env s (fun _ _ => False) fails Never) :
    ∃ why echo s', p env s = .error (.syntactic why echo) s' ∧ fails why echo s' := by
  unfold Runs at h
  cases hp : p env s with
  | ok a s' =>
    rw [hp] at h
    exact h.elim
  | error e s' =>
    rw [hp] at h
    cases e with
    | syntactic why echo => exact ⟨why, echo, s', rfl, h⟩
    | tooDeep why => exact h.elim
    | aborted why => exact h.elim

/-- A rule whose failures are handled. -/
theorem Runs.rescue {handle : Failure → Parser α}
    (h : Runs p env s gives (fun why echo s' => Runs (handle (.syntactic why echo)) env s' gives
      fails stops) fun why s' => Runs (handle (.tooDeep why)) env s' gives fails stops) :
    Runs (rescue p handle) env s gives fails stops := by
  unfold Runs at h ⊢
  unfold Parser.rescue
  cases hp : p env s with
  | ok a s' =>
    rw [hp] at h
    exact h
  | error e s' =>
    rw [hp] at h
    cases e with
    | aborted why => exact h.elim
    | _ => exact h

/-- **A rule with recovery:** behind a failure the parser reports, skips and moves on. -/
theorem Runs.recover {skip : Parser Unit} {resting : Parser Bool}
    {gives : Option α → State → Prop}
    (h : Runs p env s (fun a => gives (some a)) (fun why echo s' => Runs (do
      report why echo
      skip
      moveOn s.consumed resting
      return none) env s' gives fails stops) stops) :
    Runs (recover p skip resting) env s gives fails stops := by
  refine Gives.runs_bind (rfl : Gives get env s s s) (.rescue ?_)
  exact (h.imp (fun _ _ => id) (fun _ _ _ => id) fun _ _ => id).map fun _ _ => id

/-- **A repetition is one step,** and the repetition from there if the step asks for it. -/
theorem Runs.iterate {step : α → Parser (ForInStep α)} (progresses : Progresses step) {a : α}
    (h : Runs (step a) env s (fun next s' => (∀ out, next = .done out → gives out s') ∧
      ∀ a', next = .yield a' → Runs (iterate step a') env s' gives fails stops) fails stops) :
    Runs (iterate step a) env s gives fails stops := by
  unfold Runs at h ⊢
  rw [iterate_eq progresses]
  cases hstep : step a env s with
  | ok next s' =>
    rw [hstep] at h
    cases next with
    | done out => exact h.1 out rfl
    | yield a' => exact h.2 a' rfl
  | error e s' =>
    rw [hstep] at h
    cases e <;> exact h

end Runs

/-! ## What is read with lines in between -/

/-- On these tokens, with so many lines among them, and then one that ends the rule, it consumes
just them, reports each line and gives the value; or it stops because of the nesting. -/
def Restores (env : Setting) (stops : Diagnostic → State → Prop) (p : Parser α) (ts : List Token)
    (lines : List (List Token)) (a : α) (ends : Kind → Prop) : Prop :=
  ∀ ⦃s rest⦄, s.Spares lines.length → s.input = ts ++ rest → ends (firstKind rest) →
    Runs p env s (fun a' s' => a' = a ∧ s.Mends ts lines s') (fun _ _ _ => False) stops

section Restores

variable {stops : Diagnostic → State → Prop} {p : Parser α} {lines : List (List Token)} {a : α}
  {ends ends' : Kind → Prop}

theorem Completes.restores (h : Completes p ts a ends) : Restores env stops p ts [] a ends := by
  intro s rest hs hi hend
  obtain ⟨s', hg, ht⟩ : ∃ s', Gives p env s a s' ∧ s.Takes ts s' := h hs.calm hi hend
  exact hg.runs ⟨rfl, ht.mends⟩

/-- Where there are no lines and nothing stops, the rule just reads. -/
theorem completes_of_restores (h : ∀ env, Restores env Never p ts [] a ends) :
    Completes p ts a ends := by
  intro env s rest hs hi hend
  obtain ⟨a', s', hp, rfl, hm⟩ := (h env hs.spares hi hend).exists_gives
  exact ⟨s', hp, hm.takes_of_nil hs⟩

theorem Restores.imp (h : Restores env stops p ts lines a ends) (hends : ∀ k, ends' k → ends k) :
    Restores env stops p ts lines a ends' := fun _ _ hs hi hend => h hs hi (hends _ hend)

theorem Restores.map (h : Restores env stops p ts lines a ends) (f : α → β) :
    Restores env stops (f <$> p) ts lines (f a) ends := by
  intro s rest hs hi hend
  refine (h hs hi hend).map ?_
  rintro a' s' ⟨rfl, hm⟩
  exact ⟨rfl, hm⟩

/-- A rule that looks at a token, consumes it and goes on. -/
theorem headed_restores {k : Kind} (word : Grammar.Word k) {rule : Token → Parser α}
    (next : Token → Parser α) (h : Restores env stops (next word.1) ts lines a ends)
    (hrule : rule word.1 = do next (← advance)) :
    Restores env stops (peek >>= rule) (word.1 :: ts) lines a ends := by
  intro s rest hs hi hend
  obtain ⟨s₁, s₂, hpeek, hadvance, ht₂, hi₂⟩ := first_calm hs.calm hi env
  refine hpeek.runs_bind ?_
  rw [hrule]
  refine hadvance.runs_bind ((h (ht₂.spares hs) hi₂ hend).imp ?_ (fun _ _ _ => id) fun _ _ => id)
  rintro a' s₃ ⟨rfl, hm⟩
  exact ⟨rfl, ht₂.mends_trans hm⟩

end Restores

/-! ## Rounds of a repetition -/

/-- What one round of a repetition goes over: a member, perhaps with lines inside, or a line. -/
structure Round (α : Type) where
  tokens : List Token
  lines : List (List Token)
  member : Option α

/-- The round that passes over a line. -/
def Round.skip (line : List Token) : Round α := ⟨line, [line], none⟩

/-- The step goes this round, if no `else` follows; or it halts the repetition. -/
structure Performs (env : Setting) (stops : Diagnostic → State → Prop) (halts : State → Prop)
    (step : Array α → Parser (ForInStep (Array α))) (r : Round α) : Prop where
  tokens_ne_nil : r.tokens ≠ []
  notElse : firstKind r.tokens ≠ .keyword .elseWord
  runs : ∀ {s acc rest}, s.Spares r.lines.length → s.input = r.tokens ++ rest →
    firstKind rest ≠ .keyword .elseWord →
      Runs (step acc) env s (fun next s' =>
        (next = .yield (r.member.elim acc acc.push) ∧ s.Mends r.tokens r.lines s') ∨
          ∃ out, next = .done out ∧ halts s') (fun _ _ _ => False) stops

theorem firstKind_append {r : List Token} (h : ts ≠ []) : firstKind (ts ++ r) = firstKind ts := by
  obtain ⟨t, ts, rfl⟩ := List.exists_cons_of_ne_nil h
  rfl

section Rounds

variable {step : Array α → Parser (ForInStep (Array α))} {stops : Diagnostic → State → Prop}
  {halts : State → Prop}

theorem Array.toList_elim_push (acc : Array α) (a : Option α) :
    (a.elim acc acc.push).toList = acc.toList ++ a.toList := by
  cases a with
  | none => exact (List.append_nil _).symm
  | some a => exact Array.toList_push

/-- **Round after round,** a repetition goes over all of their tokens, with a diagnostic for each of
their lines. -/
theorem runs_rounds (progresses : Progresses step) {rounds : List (Round α)}
    (h : ∀ r ∈ rounds, Performs env stops halts step r) {acc : Array α} {n : Nat}
    {gives : Array α → State → Prop} (hs : s.Spares ((rounds.flatMap Round.lines).length + n))
    (hi : s.input = rounds.flatMap Round.tokens ++ rest)
    (hrest : firstKind rest ≠ .keyword .elseWord)
    (hthen : ∀ acc' s', acc'.toList = acc.toList ++ rounds.filterMap Round.member →
      s.Mends (rounds.flatMap Round.tokens) (rounds.flatMap Round.lines) s' →
        Runs (iterate step acc') env s' gives (fun _ _ _ => False) stops)
    (hhalts : ∀ out s', halts s' → gives out s') :
    Runs (iterate step acc) env s gives (fun _ _ _ => False) stops := by
  induction rounds generalizing acc s with
  | nil => exact hthen acc s (List.append_nil _).symm (.refl s)
  | cons r rounds ih =>
    obtain ⟨hr, hrounds⟩ := List.forall_mem_cons.1 h
    rw [List.flatMap_cons, List.length_append, Nat.add_assoc] at hs
    rw [List.flatMap_cons, List.append_assoc] at hi
    -- what follows is the first token of the next round, or of the rest
    have hnext : firstKind (rounds.flatMap Round.tokens ++ rest) ≠ .keyword .elseWord := by
      cases rounds with
      | nil => exact hrest
      | cons r' rounds =>
        have hr' := hrounds r' List.mem_cons_self
        rw [List.flatMap_cons, List.append_assoc, firstKind_append hr'.tokens_ne_nil]
        exact hr'.notElse
    refine .iterate progresses ((hr.runs (hs.mono (Nat.le_add_right _ _)) hi hnext).imp ?_
      (fun _ _ _ => id) fun _ _ => id)
    rintro next s₁ (⟨rfl, hm⟩ | ⟨out, rfl, hhalt⟩)
    · refine ⟨nofun, ?_⟩
      rintro acc₁ ⟨⟩
      refine ih hrounds (hm.spares hs) (hm.input hi) fun acc' s' hacc hm' => ?_
      refine hthen acc' s' ?_ (by simpa using hm.trans hm')
      rw [hacc, Array.toList_elim_push, List.append_assoc]
      cases hmember : r.member <;> simp [hmember]
    · refine ⟨?_, nofun⟩
      rintro out' ⟨⟩
      exact hhalts out s₁ hhalt

end Rounds

/-! ## Steps over statements and items -/

section Steps

variable {stops : Diagnostic → State → Prop} {lines : List (List Token)}

theorem Restores.recover {rule : Parser α} {skip : Parser Unit} {resting : Parser Bool} {a : α}
    {ends : Kind → Prop} (h : Restores env stops rule ts lines a ends)
    (hs : s.Spares lines.length) (hi : s.input = ts ++ rest) (hend : ends (firstKind rest)) :
    Runs (recover rule skip resting) env s (fun x s' => x = some a ∧ s.Mends ts lines s')
      (fun _ _ _ => False) stops := by
  refine .recover ((h hs hi hend).imp ?_ (fun _ _ _ => False.elim) fun _ _ => id)
  rintro a' s' ⟨rfl, hm⟩
  exact ⟨rfl, hm⟩

/-- A step of a body recovers, unless the body ends. -/
theorem performs_bodyStep {rule : Parser Stmt} {r : Round Stmt} (hne : r.tokens ≠ [])
    (helse : firstKind r.tokens ≠ .keyword .elseWord)
    (hbrace : firstKind r.tokens ≠ .symbol .rightBrace)
    (h : ∀ {s rest}, s.Spares r.lines.length → s.input = r.tokens ++ rest →
      firstKind rest ≠ .keyword .elseWord →
        Runs (recover rule skipStatement (check (.symbol .rightBrace))) env s
          (fun x s' => x = r.member ∧ s.Mends r.tokens r.lines s') (fun _ _ _ => False) stops) :
    Performs env stops (fun _ => False) (bodyStep rule) r := by
  refine ⟨hne, helse, fun {s acc rest} hs hi hrest => ?_⟩
  obtain ⟨t, s₁, hpeek, ht₁, hshows⟩ := peek_calm hs.calm env
  obtain ⟨s₂, hatEnd, ht₂⟩ := atEnd_calm ht₁.calm env
  have hinput : s₁.input ≠ [] := by
    rw [ht₁.input_eq, hi]
    exact fun h => hne (List.append_eq_nil_iff.1 h).1
  have hother : t.kind ≠ .symbol .rightBrace := by
    rw [hshows.kind, hi, firstKind_append hne]
    exact hbrace
  have ht := ht₁.after ht₂
  refine hpeek.runs_bind (hatEnd.runs_bind (Gives.runs_bind (rfl : Gives isSated _ s₂ _ s₂) ?_))
  rw [decide_eq_false hother, decide_eq_false hinput, ht₂.calm.roomy]
  refine (h (ht.spares hs) (ht.input_eq.trans hi) hrest).bind ?_
  rintro x s₃ ⟨rfl, hm⟩
  have hmends : s.Mends r.tokens r.lines s₃ := ht.mends_trans hm
  cases hmember : r.member with
  | none => exact (gives_pure _).runs (.inl ⟨rfl, hmends⟩)
  | some a => exact (gives_pure _).runs (.inl ⟨rfl, hmends⟩)

/-- What is done where the nesting is too deep: the parse halts, and no faults are to come. -/
structure Halting (stops : Diagnostic → State → Prop) (halts : State → Prop) : Prop where
  record : ∀ why s', stops why s' → halts ((s'.record why).note (.stopped why))
  faultless : ∀ s, halts s → Scan.faults s.pending = []

theorem halting_never : Halting Never fun _ => False :=
  ⟨fun _ _ => False.elim, fun _ => False.elim⟩

/-- A step over the items recovers, and halts where the nesting is too deep. -/
theorem performs_itemStep {room : Nat} {r : Round Item} {halts : State → Prop}
    (hne : r.tokens ≠ []) (helse : firstKind r.tokens ≠ .keyword .elseWord)
    (hhalting : Halting stops halts)
    (h : ∀ {s rest}, s.Spares r.lines.length → s.input = r.tokens ++ rest →
      firstKind rest ≠ .keyword .elseWord →
        Runs (recover (item room) skipItem (pure false)) env s
          (fun x s' => x = r.member ∧ s.Mends r.tokens r.lines s') (fun _ _ _ => False) stops) :
    Performs env Never halts (itemStep room) r := by
  refine ⟨hne, helse, fun {s acc rest} hs hi hrest => ?_⟩
  obtain ⟨s₁, hatEnd, ht⟩ := atEnd_calm hs.calm env
  have hinput : s.input ≠ [] := by
    rw [hi]
    exact fun h => hne (List.append_eq_nil_iff.1 h).1
  refine hatEnd.runs_bind (Gives.runs_bind (rfl : Gives isSated _ s₁ _ s₁) ?_)
  rw [decide_eq_false hinput, ht.calm.roomy]
  have hrecover := h (ht.spares hs) (ht.input_eq.trans hi) hrest
  refine .rescue ((hrecover.imp (fun _ _ => id) (fun _ _ _ => False.elim) ?_).bind ?_)
  · exact fun why s' hstop => .inr ⟨acc, rfl, hhalting.record why s' hstop⟩
  · rintro x s₂ ⟨rfl, hm⟩
    have hmends : s.Mends r.tokens r.lines s₂ := ht.mends_trans hm
    cases hmember : r.member with
    | none => exact (gives_pure _).runs (.inl ⟨rfl, hmends⟩)
    | some a => exact (gives_pure _).runs (.inl ⟨rfl, hmends⟩)

end Steps

end Parser

end ArcLang
