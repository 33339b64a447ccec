import ArcLang.Proofs.Coupling

/-!
# The bound on diagnostics only cuts the list off

Two parses that only differ in how many diagnostics they keep do the same until the smaller
collector is full. From there on the one with the smaller collector may leave bodies and items half
read, but it records nothing more; so it has recorded the first diagnostics of the other one.

* `State.capped`: a state with a smaller collector.
* `Parser.coupling_capped`: two runs do the same until the smaller collector is full.
* `recorded_eq_take`: the statement.
-/

namespace ArcLang

namespace State

variable {n : Int} {s : State}

/-- The same state, where only so many diagnostics are kept. -/
def capped (n : Int) (s : State) : State := { s with errors := { s.errors with capacity := n } }

/-- The smaller collector is not full, so neither is the other. -/
structure HasRoom (n : Int) (s : State) : Prop where
  shared : s.faults = .shared
  room : s.errors.errors.length < n
  capacity : n ≤ s.errors.capacity

namespace HasRoom

theorem isFull_eq (h : s.HasRoom n) : s.errors.isFull = false := by
  have hroom := h.room
  have hcapacity := h.capacity
  rw [← Bool.not_eq_true, Collector.isFull_iff]
  omega

theorem isFull_capped (h : s.HasRoom n) : (s.capped n).errors.isFull = false := by
  have hroom : (s.capped n).errors.errors.length < n := h.room
  rw [← Bool.not_eq_true, Collector.isFull_iff]
  show ¬ n ≤ _
  omega

/-- Both collectors take the diagnostic. -/
theorem record_capped (h : s.HasRoom n) (d : Diagnostic) :
    (s.capped n).record d = (s.record d).capped n := by
  have hnot : ¬ s.errors.isFull = true := by rw [h.isFull_eq]; decide
  have hnot' : ¬ (s.capped n).errors.isFull = true := by rw [h.isFull_capped]; decide
  unfold State.record
  rw [Collector.add, if_neg hnot', Collector.add, if_neg hnot]
  rfl

end HasRoom

end State

namespace Parser

variable {env : Setting} {n : Int}

/-! ## Two runs -/

/-- The first state is the second one with the smaller collector, and that is not full. -/
def Capped (n : Int) (s s' : State) : Prop := s = s'.capped n ∧ s'.HasRoom n

/-- The smaller collector is full, with the first of what the other one holds. -/
structure CutOff (s s' : State) : Prop where
  shared : s.faults = .shared
  shared' : s'.faults = .shared
  full : s.errors.isFull = true
  front : s.errors.errors <+: s'.errors.errors

theorem Capped.record {s s' : State} (h : Capped n s s') (why : Diagnostic) :
    Capped n (s.record why) (s'.record why) ∨ CutOff (s.record why) (s'.record why) := by
  obtain ⟨rfl, hs⟩ := h
  have hlength : (s'.record why).errors.errors.length = s'.errors.errors.length + 1 := by
    show (s'.errors.add why).errors.length = _
    rw [Collector.errors_add, if_neg (by rw [hs.isFull_eq]; decide), List.length_append,
      List.length_singleton]
  have hcapacity : (s'.record why).errors.capacity = s'.errors.capacity :=
    Collector.capacity_add _ _
  have hbound := hs.capacity
  rw [hs.record_capped]
  by_cases hroom : ((s'.record why).errors.errors.length : Int) < n
  · exact .inl ⟨rfl, hs.shared, hroom, by rw [hcapacity]; exact hbound⟩
  · refine .inr ⟨hs.shared, hs.shared, ?_, List.prefix_refl _⟩
    rw [Collector.isFull_iff]
    exact not_lt.1 hroom

theorem Capped.look {s s' : State} (h : Capped n s s') : ∃ t s₁ s₁', Gives peek env s t s₁ ∧
    Gives peek env s' t s₁' ∧ (Capped n s₁ s₁' ∨ CutOff s₁ s₁') := by
  obtain ⟨rfl, hs⟩ := h
  obtain ⟨t, s₁', hpeek, hlooks⟩ := peek_looks hs.shared env
  have hcapped {s₁ : State} (h : (s'.capped n).Looks env.source.file t s₁) :
      Gives peek env (s'.capped n) t s₁ := gives_of_looks hs.shared h
  cases hlooks with
  | again hahead => exact ⟨t, _, s', hcapped (.again hahead), hpeek, .inl ⟨rfl, hs⟩⟩
  | beyond hnone hpending ht =>
    exact ⟨t, _, _, hcapped (.beyond hnone hpending ht), hpeek,
      .inl ⟨rfl, hs.shared, hs.room, hs.capacity⟩⟩
  | token hnone hpending =>
    exact ⟨t, _, _, hcapped (.token hnone hpending), hpeek,
      .inl ⟨rfl, hs.shared, hs.room, hs.capacity⟩⟩
  | @fault why rest hnone hpending =>
    refine ⟨t, _, _, hcapped (.fault hnone hpending), hpeek, ?_⟩
    have hlooked : Capped n
        { s'.capped n with
          pending := rest, ahead := some t, events := .resynchronized t :: s'.events }
        { s' with
          pending := rest, ahead := some t, events := .resynchronized t :: s'.events } :=
      ⟨rfl, hs.shared, hs.room, hs.capacity⟩
    exact hlooked.record why

/-- **Two runs do the same until the smaller collector is full,** and nothing is added to that. -/
theorem coupling_capped (env : Setting) (n : Int) : Coupling env env (Capped n) CutOff where
  source := rfl
  ahead := by rintro _ s ⟨rfl, -⟩; rfl
  previous := by rintro _ s ⟨rfl, -⟩; rfl
  consumed := by rintro _ s ⟨rfl, -⟩; rfl
  isFull := by
    rintro _ s ⟨rfl, hs⟩
    rw [hs.isFull_eq, hs.isFull_capped]
  look h := h.look
  take := by
    rintro _ s t ⟨rfl, hs⟩ - -
    exact ⟨rfl, hs.shared, hs.room, hs.capacity⟩
  note := by
    rintro _ s e ⟨rfl, hs⟩
    exact ⟨rfl, hs.shared, hs.room, hs.capacity⟩
  record why h := h.record why
  stop := by
    rintro _ s t ⟨rfl, hs⟩ why -
    have hnoted : Capped n ((s.capped n).note (.stopped why)) (s.note (.stopped why)) :=
      ⟨rfl, hs.shared, hs.room, hs.capacity⟩
    exact hnoted.record why
  shared h := ⟨h.shared, h.shared'⟩
  parted h hgrows hgrows' := by
    refine ⟨hgrows.shared, hgrows'.shared, hgrows.errors.isFull h.full, ?_⟩
    rw [hgrows.errors.eq_of_isFull h.full]
    exact h.front.trans hgrows'.errors.errors

/-- **A program does the same until the smaller collector is full.** -/
theorem program_capped (env : Setting) {s s' : State} (h : Capped n s s') :
    Coupled env env (Capped n) CutOff (program env s) (program env s') :=
  program_coupled (coupling_capped env n)
    (fun acc s₁ _ hs₁ => (parallel_itemStep (f := id) (k := {}) #[] rfl rfl acc).coupled
      (coupling_capped env n) hs₁ (Known.at_nothing s₁)) h

end Parser

/-! ## Texts -/

variable (text file : String)

/-- No more is recorded than there is room for. -/
theorem length_recorded_le (o : Options) : (recorded text file o).length ≤ o.maxErrors.toNat := by
  obtain ⟨ds, hds⟩ := (Parser.program_grows (settingOf text file o)
    (s := startOf text file o.maxErrors) rfl).errors
  have hkept : (Collector.ofList o.maxErrors ds).errors = ds.take o.maxErrors.toNat :=
    Collector.errors_ofList o.maxErrors ds
  rw [recorded_eq, hds]
  show (Collector.ofList o.maxErrors ds).errors.length ≤ _
  rw [hkept]
  exact List.length_take_le _ _

/-- **The bound on diagnostics only cuts the list off.** A parse that keeps fewer diagnostics than
another one records the first of those that the other one records, in the order of their coming. -/
theorem recorded_eq_take {o o' : Options} (hdepth : o.maxDepth = o'.maxDepth)
    (hbound : o.maxErrors ≤ o'.maxErrors) :
    recorded text file o = (recorded text file o').take o.maxErrors.toNat := by
  have hroom : (startOf text file o'.maxErrors).HasRoom o.maxErrors :=
    ⟨rfl, by have hone := o.one_le_maxErrors; exact hone, hbound⟩
  have hsetting : settingOf text file o = settingOf text file o' := by
    unfold settingOf
    rw [hdepth]
  have hruns := (Parser.program_capped (settingOf text file o')
    (s := startOf text file o.maxErrors) ⟨rfl, hroom⟩).ends
  have hcapacity := (Parser.program_grows (settingOf text file o')
    (s := startOf text file o.maxErrors) rfl).errors.capacity
  have hlength := length_recorded_le text file o
  rw [recorded_eq, hsetting] at hlength
  rw [recorded_eq, recorded_eq, hsetting]
  generalize Parser.final (Parser.program _ (startOf text file o.maxErrors)) = s,
    Parser.final (Parser.program _ (startOf text file o'.maxErrors)) = s'
    at hlength hruns hcapacity ⊢
  rcases hruns with ⟨rfl, hroom⟩ | hcut
  · have hless := hroom.room
    exact (List.take_of_length_le (by omega)).symm
  · have hfull := hcut.full
    have hcapacity : s.errors.capacity = o.maxErrors := hcapacity
    rw [Collector.isFull_iff, hcapacity] at hfull
    have hlength : s.errors.errors.length = o.maxErrors.toNat := by omega
    rw [← hlength]
    exact List.prefix_iff_eq_take.1 hcut.front

/-- The first fault fills the collector, and the rest of the body is left. -/
theorem recorded_eq_take_of_body :
    (recorded "fun f() { a b; c d; } e f;" "m.arc" { maxErrors := 3 }).length = 3 ∧
      recorded "fun f() { a b; c d; } e f;" "m.arc" { maxErrors := 1 } =
        (recorded "fun f() { a b; c d; } e f;" "m.arc" { maxErrors := 3 }).take 1 :=
  ⟨by decide +kernel, recorded_eq_take _ _ rfl (by decide)⟩

end ArcLang
