import Mathlib.Data.List.DropRight
import ArcLang.Proofs.Interleaving
import ArcLang.Proofs.Reporting

/-!
# Reports

A collector may be filled and emptied in any order: it holds the first of what was added since it
was last emptied. A report lists that by place. The listing does not change when it is listed again,
so the result of a parse, which has nothing but the listing, reports what the collector of the parse
reports.

* `Collector.run`: a collector that is filled and emptied.
* `Collector.run_eq_ofList`: what has been emptied does not count.
* `IsListing`: diagnostics by place; those of one offset stay in their order.
* `Collector.isListing_sorted`, `Collector.report_relisted`: what a collector lists and reports.
* `collected_and_reported`: the statement.
-/

namespace ArcLang

namespace Collector

/-! ## Runs -/

/-- What is done to a collector. -/
inductive Step
  | adds (d : Diagnostic)
  | clears

/-- What a step adds. -/
def Step.added? : Step → Option Diagnostic
  | adds d => some d
  | clears => none

/-- Takes a step. -/
def step (c : Collector) : Step → Collector
  | .adds d => c.add d
  | .clears => c.clear

/-- Takes the steps one after the other. -/
def run (c : Collector) (steps : List Step) : Collector := steps.foldl step c

/-- What was added behind the last step that empties the collector. -/
def addedSince (steps : List Step) : List Diagnostic :=
  (steps.rtakeWhile (·.added?.isSome)).filterMap Step.added?

theorem addedSince_adds (steps : List Step) (d : Diagnostic) :
    addedSince (steps ++ [.adds d]) = addedSince steps ++ [d] := by
  rw [addedSince, List.rtakeWhile_concat_pos _ _ _ rfl, List.filterMap_append]
  rfl

theorem addedSince_clears (steps : List Step) : addedSince (steps ++ [.clears]) = [] := by
  rw [addedSince, List.rtakeWhile_concat_neg _ _ _ Bool.false_ne_true, List.filterMap_nil]

/-- **A run comes to the same as adding what was added since the collector was last emptied.** -/
theorem run_eq_ofList (capacity : Int) (steps : List Step) :
    run { capacity := capacity } steps = ofList capacity (addedSince steps) := by
  induction steps using List.reverseRecOn with
  | nil => rfl
  | append_singleton steps x ih =>
    rw [run, List.foldl_concat, ← run, ih]
    cases x with
    | adds d => rw [addedSince_adds, ofList_concat, step]
    | clears => rw [addedSince_clears, step, clear_ofList]

end Collector

/-! ## Listings -/

/-- The offset of the place. -/
def Diagnostic.offset? (d : Diagnostic) : Option Int := d.place.map (·.offset)

/-- The second list has the diagnostics of the first by place. -/
structure IsListing (ds listed : List Diagnostic) : Prop where
  perm : listed.Perm ds
  /-- Those with a place come first, and their offsets do not decrease; the others come last. -/
  ordered : ∃ (offsets : List Int) (n : Nat), offsets.Pairwise (· ≤ ·) ∧
    listed.map Diagnostic.offset? = offsets.map some ++ List.replicate n none
  /-- Those of one offset are in their order, and so are those without a place. -/
  stable : ∀ offset, listed.filter (·.offset? = offset) = ds.filter (·.offset? = offset)

namespace Collector

theorem precedes_iff {a b : Diagnostic} : precedes a b = true ↔
    ∀ n, b.offset? = some n → ∃ m ≤ n, a.offset? = some m := by
  unfold precedes Diagnostic.offset?
  cases a.place <;> cases b.place <;> simp

/-- In the order of places, what has none is behind all that has one. -/
theorem exists_offsets {ds : List Diagnostic}
    (h : ds.Pairwise fun a b => precedes a b = true) :
    ∃ (offsets : List Int) (n : Nat), offsets.Pairwise (· ≤ ·) ∧
      ds.map Diagnostic.offset? = offsets.map some ++ List.replicate n none := by
  induction ds with
  | nil => exact ⟨[], 0, .nil, rfl⟩
  | cons d ds ih =>
    obtain ⟨hfirst, hrest⟩ := List.pairwise_cons.1 h
    obtain ⟨offsets, n, hoffsets, hds⟩ := ih hrest
    have hbehind (k : Int) (hk : k ∈ offsets) : ∃ m ≤ k, d.offset? = some m := by
      have hmem : some k ∈ ds.map Diagnostic.offset? := by
        rw [hds]
        exact List.mem_append_left _ (List.mem_map_of_mem hk)
      obtain ⟨e, he, hek⟩ := List.mem_map.1 hmem
      exact precedes_iff.1 (hfirst e he) k hek
    rw [List.map_cons, hds]
    cases hd : d.offset? with
    | some m =>
      refine ⟨m :: offsets, n, List.pairwise_cons.2 ⟨fun k hk => ?_, hoffsets⟩, rfl⟩
      obtain ⟨m', hle, hm'⟩ := hbehind k hk
      rw [hd] at hm'
      exact Option.some.inj hm' ▸ hle
    | none =>
      have hnil : offsets = [] := by
        refine List.eq_nil_iff_forall_not_mem.2 fun k hk => ?_
        obtain ⟨m, -, hm⟩ := hbehind k hk
        rw [hd] at hm
        cases hm
      exact ⟨[], n + 1, .nil, by rw [hnil]; rfl⟩

variable (c : Collector)

theorem pairwise_sorted : c.sorted.Pairwise fun a b => precedes a b = true :=
  List.pairwise_mergeSort precedes_trans precedes_total c.errors

/-- **What a collector lists is in the order of places.** -/
theorem isListing_sorted : IsListing c.errors c.sorted where
  perm := c.sorted_perm
  ordered := exists_offsets c.pairwise_sorted
  stable offset := by
    refine filter_sorted (List.pairwise_of_forall_mem_list fun a ha b hb => ?_)
    have ha := of_decide_eq_true (List.mem_filter.1 ha).2
    have hb := of_decide_eq_true (List.mem_filter.1 hb).2
    exact precedes_iff.2 fun n hn => ⟨n, le_rfl, ha.trans (hb.symm.trans hn)⟩

/-! ## Reports -/

theorem report_eq : c.report =
    "\n".intercalate (c.sorted.flatMap (fun d => [d.text, ""]) ++ [tally c.errors.length]) := rfl

/-- A collector with room for what another one lists holds all of it. -/
theorem errors_relisted : (ofList (max c.errors.length 1) c.sorted).errors = c.sorted := by
  rw [errors_ofList, List.take_of_length_le]
  have := c.sorted_perm.length_eq
  omega

/-- **A collector that is given the list of another one reports the same.** -/
theorem report_relisted : (ofList (max c.errors.length 1) c.sorted).report = c.report := by
  have hsorted : (ofList (max c.errors.length 1) c.sorted).sorted = c.sorted := by
    rw [sorted, errors_relisted]
    exact List.mergeSort_of_pairwise c.pairwise_sorted
  rw [report_eq, report_eq, hsorted, errors_relisted, c.sorted_perm.length_eq]

end Collector

section Texts

variable {text file : String} {o : Options}

/-- A result reports what the collector of its parse reports, and so does its refusal. -/
theorem reports_of_parseScans {p : Program} {s : State}
    (h : parseScans (settingOf text file o) { capacity := o.maxErrors } .shared
      (scansOf text file) = .ok (p, s)) :
    ∃ r, parse text file o = .ok r ∧ r.program = p ∧ r.report = s.errors.report ∧
      r.unwrap = if s.errors.errors.isEmpty then .ok p
        else .error ⟨s.errors.report, s.errors.sorted⟩ := by
  obtain ⟨r, hr, rfl, hdiagnostics⟩ := parse_of_parseScans h
  have hreport : r.report = s.errors.report := by
    rw [Parsed.report, hdiagnostics, s.errors.sorted_perm.length_eq]
    exact s.errors.report_relisted
  have hclean : r.isClean = s.errors.errors.isEmpty := by
    rw [Parsed.isClean, hdiagnostics, Bool.eq_iff_iff, List.isEmpty_iff, List.isEmpty_iff,
      Collector.sorted_eq_nil_iff]
  refine ⟨r, hr, rfl, hreport, ?_⟩
  rw [Parsed.unwrap, hclean, hreport, hdiagnostics]

/-- A text is parsed to its end, or given up at a length with too many digits. -/
theorem parse_ends (text file : String) (o : Options) :
    (∃ digits, parse text file o = .error (.hugeLength digits)) ∨
    ∃ p s, parseScans (settingOf text file o) { capacity := o.maxErrors } .shared
      (scansOf text file) = .ok (p, s) := by
  rcases parseScans_ends (settingOf text file o) { capacity := o.maxErrors } .shared
    (scansOf text file) with ⟨p, s, hs⟩ | ⟨digits, s, hs⟩ | ⟨hraise, -⟩
  · exact .inr ⟨p, s, hs⟩
  · refine .inl ⟨digits, ?_⟩
    unfold parse
    dsimp only
    rw [hs]
    rfl
  · cases hraise

end Texts

/-- **What is collected and how it is reported.** A collector that is filled and emptied in any
order holds the first of what was added since it was last emptied, as many as its capacity says. It
lists them by place, and a collector that is given this list reports the same. So the result of a
parse, unless that is given up, reports what the collector of the parse reports; and the refusal of
a text with diagnostics says the same. -/
theorem collected_and_reported :
    (∀ (capacity : Int) (steps : List Collector.Step),
      let c := Collector.run { capacity := capacity } steps
      c.errors = (Collector.addedSince steps).take (max 0 capacity).toNat ∧
      IsListing c.errors c.sorted ∧
      (Collector.ofList (max c.errors.length 1) c.sorted).report = c.report) ∧
    ∀ (text file : String) (o : Options),
      (∃ digits, parse text file o = .error (.hugeLength digits)) ∨
      ∃ r s, parse text file o = .ok r ∧
        parseScans (settingOf text file o) { capacity := o.maxErrors } .shared
          (scansOf text file) = .ok (r.program, s) ∧
        r.report = s.errors.report ∧
        r.unwrap = if s.errors.errors.isEmpty then .ok r.program
          else .error ⟨s.errors.report, s.errors.sorted⟩ := by
  refine ⟨fun capacity steps => ⟨?_, Collector.isListing_sorted _, Collector.report_relisted _⟩,
    fun text file o => ?_⟩
  · rw [Collector.run_eq_ofList, Collector.errors_ofList]
    congr 1
    omega
  · refine (parse_ends text file o).imp_right ?_
    rintro ⟨p, s, hs⟩
    obtain ⟨r, hr, rfl, hreports⟩ := reports_of_parseScans hs
    exact ⟨r, s, hr, hs, hreports⟩

/-- A collector with room for two that is emptied once. -/
example (d e f g : Diagnostic) :
    (Collector.run { capacity := 2 } [.adds d, .clears, .adds e, .adds f, .adds g]).errors =
      [e, f] := rfl

end ArcLang
