import ArcLang.Proofs.Coupling

/-!
# A bound on nesting that is not met

The bound on nesting is only noticed by a parse that meets it. A parse that ends with room for more
diagnostics, and has not told that the nesting is too deep, goes the same way within every larger
bound, whatever else is wrong with the text: the levels that a broken statement has taken are given
back where the parse goes on behind it.

* `Parser.coupling_same`: two runs within different bounds are the same until one is told of.
* `Parser.itemStep_coupled`, `Parser.program_deeper`: items and programs with more room.
* `parse_deeper`: the statement.
-/

namespace ArcLang

namespace Parser

variable {α : Type} {env env' : Setting} {s s' : State}

/-! ## Two bounds -/

/-- Both are the same state. -/
def Same (s s' : State) : Prop := s = s' ∧ s.faults = .shared

/-- In the first state the bound may have been noticed. -/
structure PastBound (s s' : State) : Prop where
  shared : s.faults = .shared
  shared' : s'.faults = .shared
  meets : s.MeetsBound

/-- **Two runs within different bounds are the same until one is told of.** -/
theorem coupling_same (hsource : env'.source = env.source) :
    Coupling env env' Same PastBound where
  source := hsource
  ahead := by rintro s _ ⟨rfl, -⟩; rfl
  previous := by rintro s _ ⟨rfl, -⟩; rfl
  consumed := by rintro s _ ⟨rfl, -⟩; rfl
  isFull := by rintro s _ ⟨rfl, -⟩; rfl
  look := by
    rintro s _ ⟨rfl, hs⟩
    obtain ⟨t, s₁, hpeek, hlooks⟩ := peek_looks hs env
    have hpeek' : Gives peek env' s t s₁ := gives_of_looks hs (by rwa [hsource])
    exact ⟨t, s₁, s₁, hpeek, hpeek', .inl ⟨rfl, (peek_gives hpeek).1.shared hs⟩⟩
  take := by rintro s _ t ⟨rfl, hs⟩ - -; exact ⟨rfl, hs⟩
  note := by rintro s _ e ⟨rfl, hs⟩; exact ⟨rfl, hs⟩
  record := by rintro s _ why ⟨rfl, hs⟩; exact .inl ⟨rfl, hs⟩
  stop := by
    rintro s _ t ⟨rfl, hs⟩ why -
    exact .inr ⟨hs, hs, State.MeetsBound.record (s := s) (show why.category = _ from rfl)⟩
  shared h := ⟨h.shared, h.shared'⟩
  parted h hgrows hgrows' := ⟨hgrows.shared, hgrows'.shared, h.meets.grows hgrows⟩

/-! ## More room -/

variable {m n : Nat}

/-- Reading with more room stops where the nesting is too deep, and that is told. -/
theorem haltDeep_refines {p q : Parser α} (h : Refines [] p q) (hs : s.faults = .shared) (a : α) :
    haltDeep p a env s = haltDeep q a env s ∨ (final (haltDeep p a env s)).MeetsBound := by
  rw [run_haltDeep, run_haltDeep]
  rcases h.runs env s (.inr hs) with hsame | ⟨why, s₁, hstop, hcause, -⟩
  · exact .inl (by rw [hsame])
  · have hdeep : why.category = .recursionLimit := by
      rw [Diagnostic.category, hcause]
      rfl
    rw [hstop]
    exact .inr (State.MeetsBound.record (s := s₁) hdeep)

/-- An item that is nested too deeply ends the parse, which tells that. -/
theorem itemStep_refines (h : m ≤ n) (hs : s.faults = .shared) (acc : Array Item) :
    itemStep m acc env s = itemStep n acc env s ∨
      (final (itemStep m acc env s)).MeetsBound := by
  obtain ⟨t, s₁, hpeek, -⟩ := peek_looks hs env
  have hs₁ := (peek_gives hpeek).1.shared hs
  rw [run_itemStep hpeek, run_itemStep hpeek]
  split
  · exact .inl rfl
  · have hread : Refines [] (recover (item m) skipItem (pure false))
        (recover (item n) skipItem (pure false)) :=
      refines_recover (refines_item h) steady_skipItem (.pure false)
    refine haltDeep_refines (hread.bind fun read => ?_) hs₁ _
    cases read <;> exact .pure _

/-- **An item with more room, within a larger bound.** -/
theorem itemStep_coupled (hsource : env'.source = env.source) (h : m ≤ n) (acc : Array Item)
    (hs : Same s s') :
    Coupled env env' Same PastBound (itemStep m acc env s) (itemStep n acc env' s') := by
  obtain ⟨rfl, hshared⟩ := hs
  rcases itemStep_refines h hshared acc with hsame | hmeets
  · rw [hsame]
    exact (parallel_itemStep (f := id) (k := {}) #[] rfl rfl acc).coupled (coupling_same hsource)
      ⟨rfl, hshared⟩ (Known.at_nothing s)
  · exact .parted ⟨(growing_itemStep m acc env s hshared).shared,
      (growing_itemStep n acc env' s hshared).shared, hmeets⟩

/-- **A program within a larger bound.** -/
theorem program_deeper (hsource : env'.source = env.source) (h : env.maxDepth ≤ env'.maxDepth)
    (hs : s.faults = .shared) :
    Coupled env env' Same PastBound (program env s) (program env' s) :=
  program_coupled (coupling_same hsource)
    (fun acc _ _ hs₁ => itemStep_coupled hsource (Int.toNat_le_toNat h) acc hs₁) ⟨rfl, hs⟩

end Parser

/-! ## Texts -/

variable {text file : String} {o o' : Options} {r : Parsed}

/-- **A bound on nesting that is not met does not matter.** Where a parse has room for more
diagnostics, and has not told that the nesting is too deep, the parse within every larger bound
gives the same, the program and the diagnostics. -/
theorem parse_deeper (h : parse text file o = .ok r) (hfew : r.diagnostics.length < o.maxErrors)
    (hshallow : ∀ d ∈ r.diagnostics, d.category ≠ .recursionLimit)
    (herrors : o'.maxErrors = o.maxErrors) (hdepth : o.maxDepth ≤ o'.maxDepth) :
    parse text file o' = .ok r := by
  have hruns : Parser.Coupled (settingOf text file o) (settingOf text file o') Parser.Same
      Parser.PastBound (Parser.program (settingOf text file o) (startOf text file o.maxErrors))
      (Parser.program (settingOf text file o') (startOf text file o.maxErrors)) :=
    Parser.program_deeper rfl hdepth rfl
  have hcapacity := (Parser.program_grows (settingOf text file o)
    (s := startOf text file o.maxErrors) rfl).errors.capacity
  rw [parse_eq] at h ⊢
  rw [herrors]
  cases hruns with
  | ok p s s' hrun hrun' hs =>
    obtain ⟨rfl, -⟩ := hs
    rw [hrun']
    rwa [hrun] at h
  | error e e' s s' hrun =>
    rw [hrun] at h
    cases h
  | parted hparted =>
    have hmeets := hparted.meets
    cases hrun : Parser.program (settingOf text file o) (startOf text file o.maxErrors) with
    | error e s =>
      rw [hrun] at h
      cases h
    | ok p s =>
      rw [hrun] at h hcapacity hmeets
      cases h
      have hcapacity : s.errors.capacity = o.maxErrors := hcapacity
      have hlength : s.errors.sorted.length = s.errors.errors.length :=
        s.errors.sorted_perm.length_eq
      rcases hmeets with hfull | ⟨d, hd, hdeep⟩
      · have hfull : s.errors.isFull = true := hfull
        have hfew : (s.errors.sorted.length : Int) < o.maxErrors := hfew
        rw [Collector.isFull_iff] at hfull
        omega
      · exact absurd hdeep (hshallow d (s.errors.sorted_perm.mem_iff.2 hd))

/-- A broken statement inside a body does not take levels from those behind it. -/
theorem parse_deeper_of_fault : ∃ r,
    parse "fun f() { (a b; (c); }" "m.arc" { maxDepth := 3 } = .ok r ∧
      r.diagnostics.map Diagnostic.category = [.syntactic] ∧
        parse "fun f() { (a b; (c); }" "m.arc" { maxDepth := 64 } = .ok r := by
  have hrun : (parse "fun f() { (a b; (c); }" "m.arc" { maxDepth := 3 }).toOption.map
      (fun r => r.diagnostics.map Diagnostic.category) = some [.syntactic] := by
    decide +kernel
  obtain ⟨r, hp, hcategories⟩ := exists_of_map_toOption hrun
  have hlength := congrArg List.length hcategories
  rw [List.length_map] at hlength
  refine ⟨r, hp, hcategories, parse_deeper hp ?_ (fun d hd => ?_) rfl (by decide)⟩
  · rw [hlength]
    decide
  · have hmem : d.category ∈ r.diagnostics.map Diagnostic.category := List.mem_map_of_mem hd
    rw [hcategories] at hmem
    rw [List.mem_singleton.1 hmem]
    decide

end ArcLang
