import ArcLang.Proofs.Totality
import ArcLang.Proofs.Upholding

/-!
# What a parse records

Whatever rule runs, and however it ends, the collector of the parse only gains diagnostics; once it
is full it stays as it is. So what has been recorded at one time is the front of what is recorded
later.

* `Collector.Grows`: a collector, and the same one when more has been added.
* `State.MeetsBound`: the parse may have noticed the bound on nesting by now.
* `Parser.Parallel.grows`: every rule only adds.
* `Parser.grows_bind`, `Parser.grows_iterate`, `Parser.grows_recover`, `Parser.grows_haltDeep`: what
  follows a rule only adds to what the rule has recorded.
* `recorded`: the diagnostics of a text in the order of their coming.
* `parse_sorts_recorded`: a result lists them by place.
-/

namespace ArcLang

/-! ## Collectors -/

namespace Collector

/-- The second collector is the first, to which more has been added. -/
def Grows (c c' : Collector) : Prop := ∃ ds, c' = c.addAll ds

namespace Grows

variable {c c' c'' : Collector}

theorem refl (c : Collector) : c.Grows c := ⟨[], rfl⟩

theorem add (c : Collector) (d : Diagnostic) : c.Grows (c.add d) := ⟨[d], rfl⟩

theorem trans (h : c.Grows c') (h' : c'.Grows c'') : c.Grows c'' := by
  obtain ⟨ds, rfl⟩ := h
  obtain ⟨es, rfl⟩ := h'
  exact ⟨ds ++ es, List.foldl_append.symm⟩

/-- What holds of a collector, and still when one more is added, holds when it has grown. -/
theorem keeps {motive : Collector → Prop} (h : c.Grows c') (hc : motive c)
    (hadd : ∀ c d, motive c → motive (c.add d)) : motive c' := by
  obtain ⟨ds, rfl⟩ := h
  induction ds generalizing c with
  | nil => exact hc
  | cons d ds ih => exact ih (hadd c d hc)

theorem capacity (h : c.Grows c') : c'.capacity = c.capacity :=
  h.keeps (motive := (·.capacity = c.capacity)) rfl fun b d hb => (b.capacity_add d).trans hb

theorem errors (h : c.Grows c') : c.errors <+: c'.errors := by
  refine h.keeps (motive := (c.errors <+: ·.errors)) (List.prefix_refl _) fun b d hb => ?_
  rw [errors_add]
  split
  · exact hb
  · exact hb.trans (List.prefix_append _ _)

/-- A full collector takes nothing more. -/
theorem eq_of_isFull (h : c.Grows c') (hfull : c.isFull = true) : c' = c :=
  h.keeps (motive := (· = c)) rfl fun b d hb => by rw [hb, Collector.add, if_pos hfull]

theorem isFull (h : c.Grows c') (hfull : c.isFull = true) : c'.isFull = true := by
  rw [h.eq_of_isFull hfull, hfull]

end Grows

end Collector

/-- The second state still shares its collector with the stream, and has only gained diagnostics. -/
structure State.Grows (s s' : State) : Prop where
  shared : s'.faults = .shared
  errors : s.errors.Grows s'.errors

namespace State.Grows

variable {s s' s'' : State}

theorem refl (h : s.faults = .shared) : s.Grows s := ⟨h, .refl _⟩

theorem trans (h : s.Grows s') (h' : s'.Grows s'') : s.Grows s'' :=
  ⟨h'.shared, h.errors.trans h'.errors⟩

end State.Grows

/-- The collector is full, or it has been told that the nesting is too deep. -/
def State.MeetsBound (s : State) : Prop :=
  s.errors.isFull = true ∨ ∃ d ∈ s.errors.errors, d.category = .recursionLimit

namespace State.MeetsBound

variable {s s' : State}

theorem grows (h : s.MeetsBound) (hgrows : s.Grows s') : s'.MeetsBound :=
  h.imp hgrows.errors.isFull fun ⟨d, hd, hdeep⟩ => ⟨d, hgrows.errors.errors.subset hd, hdeep⟩

/-- What is told of the nesting is recorded, if there is room for it. -/
theorem record {why : Diagnostic} (h : why.category = .recursionLimit) :
    (s.record why).MeetsBound := by
  by_cases hfull : s.errors.isFull = true
  · exact .inl ((Collector.Grows.add s.errors why).isFull hfull)
  · refine .inr ⟨why, ?_, h⟩
    show why ∈ (s.errors.add why).errors
    rw [Collector.errors_add, if_neg hfull]
    exact List.mem_append_right _ (List.mem_singleton_self why)

end State.MeetsBound

namespace Parser

variable {α β : Type} {env : Setting} {k : Known} {s : State}

/-! ## Rules -/

/-- The state in which a run ends. -/
def final : EStateM.Result Failure State α → State
  | .ok _ s | .error _ s => s

theorem Upheld.final {Holds : State → Prop} {Fair : Failure → Prop}
    {r : EStateM.Result Failure State α} (h : Upheld Holds Fair r) : Holds (final r) := by
  cases r with
  | ok a s' => exact h
  | error e s' => exact h.1

/-- **Every step only adds.** -/
theorem law_grows (env : Setting) (s₀ : State) :
    Law env s₀.Grows (fun _ => True) (fun _ => True) where
  shared hs := hs.shared
  look {s s' t} hs hpeek := by
    refine ⟨?_, trivial⟩
    cases looks_of_gives hs.shared hpeek with
    | again => exact hs
    | beyond => exact ⟨hs.shared, hs.errors⟩
    | token => exact ⟨hs.shared, hs.errors⟩
    | @fault why => exact ⟨hs.shared, hs.errors.trans (.add _ why)⟩
  take hs _ _ := ⟨hs.shared, hs.errors⟩
  note _ hs := ⟨hs.shared, hs.errors⟩
  fail _ _ := trivial
  deep _ := trivial
  record {s why} hs _ := ⟨hs.shared, hs.errors.trans (.add _ why)⟩

/-- **A rule only adds to what has been recorded,** however it ends. -/
theorem Parallel.grows {f : Location → Location} {v : α → β} {p : Parser α} {q : Parser β}
    (h : Parallel f k v p q) (env : Setting) (hs : s.faults = .shared) (hat : k.At s) :
    s.Grows (final (p env s)) :=
  (h.upholds (law_grows env s) (.refl hs) hat fun _ _ => trivial).final

/-- Wherever it starts, the rule only adds. -/
def Growing (p : Parser α) : Prop :=
  ∀ env (s : State), s.faults = .shared → s.Grows (final (p env s))

/-- What follows a rule only adds to what the rule has recorded. -/
theorem grows_bind {p : Parser α} {r : α → Parser β} (hp : (final (p env s)).faults = .shared)
    (hr : ∀ a, Growing (r a)) : (final (p env s)).Grows (final ((p >>= r) env s)) := by
  rw [run_bind]
  cases hrun : p env s with
  | ok a s₁ => exact hr a env s₁ (by rwa [hrun] at hp)
  | error e s₁ => exact .refl (by rwa [hrun] at hp)

theorem upheld_of_final {Holds : State → Prop} {r : EStateM.Result Failure State α}
    (h : Holds (final r)) : Upheld Holds (fun _ => True) r := by
  cases r with
  | ok a s' => exact h
  | error e s' => exact ⟨h, fun _ => trivial⟩

theorem growing_iterate {step : β → Parser (ForInStep β)} (progresses : Progresses step)
    (gstep : ∀ b, Growing (step b)) (b : β) : Growing (iterate step b) := by
  intro env s hs
  have hupheld : Upheld s.Grows (fun _ => True) (iterate step b env s) :=
    .iterate progresses (fun b s₁ hs₁ => upheld_of_final (hs₁.trans (gstep b env s₁ hs₁.shared)))
      (.refl hs) b
  exact hupheld.final

/-- What follows the first step of a repetition only adds to what the step has recorded. -/
theorem grows_iterate {step : β → Parser (ForInStep β)} (progresses : Progresses step)
    (gstep : ∀ b, Growing (step b)) {b : β} (hstep : (final (step b env s)).faults = .shared) :
    (final (step b env s)).Grows (final (iterate step b env s)) := by
  rw [iterate_eq progresses]
  rcases hrun : step b env s with ⟨b₁ | b₁, s₁⟩ | ⟨e, s₁⟩
  all_goals rw [hrun] at hstep
  · exact .refl hstep
  · exact growing_iterate progresses gstep b₁ env s₁ hstep
  · exact .refl hstep

namespace Growing

theorem pure (a : α) : Growing (Pure.pure a : Parser α) := fun _ _ hs => .refl hs

theorem bind {p : Parser α} {r : α → Parser β} (hp : Growing p) (hr : ∀ a, Growing (r a)) :
    Growing (p >>= r) := by
  intro env s hs
  have hfirst := hp env s hs
  exact hfirst.trans (grows_bind hfirst.shared hr)

theorem advance : Growing advance := fun env s hs =>
  (Upheld.advance (law_grows env s) (.refl hs)).final

theorem moveOn {resting : Parser Bool} (before : Nat) (h : Growing resting) :
    Growing (moveOn before resting) := fun env s hs =>
  (Upheld.moveOn (law_grows env s) before (.refl hs) (upheld_of_final (h env s hs))).final

/-- Skipping behind a failure that has been reported. -/
theorem skips {skip : Parser Unit} {resting : Parser Bool} (before : Nat) (hskip : Growing skip)
    (hresting : Growing resting) :
    Growing (do skip; Parser.moveOn before resting; Pure.pure (none : Option α)) :=
  hskip.bind fun _ => (hresting.moveOn before).bind fun _ => .pure none

end Growing

theorem growing_report (why : Diagnostic) (echo : Bool) : Growing (report why echo) :=
  fun env s hs => (Upheld.report (law_grows env s) (.refl hs) trivial).final

/-- A rule that counts on nothing. -/
theorem Parallel.growing {f : Location → Location} {v : α → β} {p : Parser α} {q : Parser β}
    {halts : Bool} (h : Parallel f { halts } v p q) : Growing p := fun env s hs =>
  h.grows env hs (Known.at_nothing s)

theorem grows_recover {p : Parser α} {skip : Parser Unit} {resting : Parser Bool}
    (hp : (final (p env s)).faults = .shared) (hskip : Growing skip) (hresting : Growing resting) :
    (final (p env s)).Grows (final (recover p skip resting env s)) := by
  rw [run_recover]
  rcases hrun : p env s with ⟨a, s₁⟩ | ⟨⟨why, echo⟩ | why | why, s₁⟩
  · exact .refl (by rwa [hrun] at hp)
  · refine (growing_report why echo).bind (fun _ => hskip.skips _ hresting) env s₁ ?_
    rwa [hrun] at hp
  · exact .refl (by rwa [hrun] at hp)
  · exact .refl (by rwa [hrun] at hp)

theorem grows_haltDeep {p : Parser α} (hp : (final (p env s)).faults = .shared) (a : α) :
    (final (p env s)).Grows (final (haltDeep p a env s)) := by
  rw [run_haltDeep]
  rcases hrun : p env s with ⟨a, s₁⟩ | ⟨⟨why, echo⟩ | why | why, s₁⟩
  · exact .refl (by rwa [hrun] at hp)
  · exact .refl (by rwa [hrun] at hp)
  · exact ⟨by rwa [hrun] at hp, .add _ why⟩
  · exact .refl (by rwa [hrun] at hp)

theorem growing_close (items : Array Item) : Growing (close items) := by
  intro env s hs
  have hupheld : Upheld s.Grows (fun _ => True) (close items env s) :=
    .look (law_grows env s) (.refl hs) fun _ _ hs₁ _ _ => hs₁
  exact hupheld.final

/-- **A program only adds to what has been recorded.** -/
theorem program_grows (env : Setting) (hs : s.faults = .shared) :
    s.Grows (final (program env s)) :=
  (program_upheld (law_grows env s) (.refl hs)).final

end Parser

/-! ## Texts -/

/-- The diagnostics that are recorded while a text is parsed, in the order of their coming; also
where the parse is given up. -/
def recorded (text file : String) (o : Options) : List Diagnostic :=
  let source := Source.ofText file text
  match parseScans ⟨source, o.maxDepth⟩ { capacity := o.maxErrors } .shared (scan source text) with
  | .ok (_, s) | .error (_, s) => s.errors.errors

variable (text file : String) (o : Options)

theorem recorded_eq : recorded text file o =
    (Parser.final (Parser.program (settingOf text file o)
      (startOf text file o.maxErrors))).errors.errors := by
  unfold recorded parseScans
  dsimp only
  cases Parser.program (settingOf text file o) (startOf text file o.maxErrors) <;> rfl

/-- A result lists by place what has been recorded. -/
theorem parse_sorts_recorded {text file : String} {o : Options} {r : Parsed}
    (h : parse text file o = .ok r) :
    r.diagnostics = (recorded text file o).mergeSort Collector.precedes := by
  rw [parse_eq] at h
  rw [recorded_eq]
  generalize Parser.program (settingOf text file o) (startOf text file o.maxErrors) = x at h ⊢
  cases x with
  | ok p s =>
    cases h
    rfl
  | error e s => cases h

end ArcLang
