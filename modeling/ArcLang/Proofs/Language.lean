import ArcLang.Proofs.Precedence
import ArcLang.Proofs.ProgramCompleteness
import ArcLang.Proofs.Spelling

/-!
# The language that is accepted

A text is accepted without diagnostics exactly if it is a text of the language: it scans without
faults, its tokens are derived from the grammar, it assigns to places only, its lengths have values,
and its nesting is within the bound. Recovery lets nothing else pass, and refuses nothing.

* `InLanguage`: the texts of the language.
* `parse_isClean_iff`: the statement.
-/

namespace ArcLang

/-- The scans of a text of a file. -/
abbrev scansOf (text file : String) : List Scan := scan (.ofText file text) text

/-- The derivation is one of the text, with no more than so many levels of nesting. -/
structure Grammar.Program.Derives (d : Grammar.Program) (text file : String) (depth : Nat) :
    Prop where
  /-- The tokens before the end are those derived. -/
  tokens : d.tokens = Scan.beforeEnd (scansOf text file)
  /-- Assignments are to names, members and elements. -/
  placed : ∀ i ∈ d.trees, (Node.ofItem i).Throughout Node.AssignsToPlace
  /-- The lengths of arrays have values. -/
  lengths : Grammar.Resolve d.lengths
  /-- The tree that is denoted is not nested more deeply. -/
  need : needMost Item.need d.trees ≤ depth

/-- The text scans without faults, and is derived in the grammar with so many levels of nesting. -/
def InLanguage (text file : String) (depth : Nat) : Prop :=
  Scan.faults (scansOf text file) = [] ∧ ∃ d : Grammar.Program, d.Derives text file depth

/-- The state in which the parse of a text starts. -/
abbrev startOf (text file : String) (n : Int) : State :=
  { pending := scansOf text file, errors := { capacity := n }, faults := .shared }

section Scans

variable {text file : String} {m n : Int} {p : Program} {s : State}

theorem candid_startOf (hn : 1 ≤ n) : (startOf text file n).Candid where
  shared := rfl
  capacity := hn
  pending _ ht := Scan.isError_of_token_mem _ _ (State.mem_pending_of_mem_coming ht)
  ahead _ h := by cases h

theorem calm_startOf (hn : 1 ≤ n) (h : Scan.faults (scansOf text file) = []) :
    (startOf text file n).Calm where
  faultless := h
  roomy := by
    rw [← Bool.not_eq_true, Collector.isFull_iff]
    show ¬ n ≤ 0
    omega

/-- A parse without diagnostics has read a derivation. -/
theorem derives_of_parseScans (hn : 1 ≤ n)
    (h : parseScans ⟨.ofText file text, m⟩ { capacity := n } .shared (scansOf text file) =
      .ok (p, s)) (hs : s.errors.errors = []) :
    Scan.faults (scansOf text file) = [] ∧
      ∃ d : Grammar.Program, d.Derives text file m.toNat ∧ d.trees = p.items := by
  obtain ⟨hgrouped, hread⟩ := Parser.program_sound (parseScans_eq_ok_iff.1 h)
  obtain ⟨d, -, htokens, htrees, hlengths, hneed, herror⟩ := hread ⟨candid_startOf hn, hs⟩
  refine ⟨(Scan.faults_scan_eq_nil_iff _ _).2 herror, d, ⟨htokens, ?_, hlengths, ?_⟩, htrees⟩
  · exact fun i hi => Node.assignsToPlace_of_grouped hgrouped (htrees ▸ hi)
  · rw [htrees]; exact hneed

/-- A derivation is read without diagnostics. -/
theorem parseScans_of_derives (hn : 1 ≤ n) (hfaults : Scan.faults (scansOf text file) = [])
    {d : Grammar.Program} (hd : d.Derives text file m.toNat) : ∃ p s,
      parseScans ⟨.ofText file text, m⟩ { capacity := n } .shared (scansOf text file) =
        .ok (p, s) ∧ p.items = d.trees ∧ s.errors.errors = [] := by
  let env : Setting := ⟨.ofText file text, m⟩
  have hneed : needMost Item.need d.trees ≤ env.room := hd.need
  obtain ⟨p, s, hp, hitems, ht⟩ := Parser.program_complete (calm_startOf hn hfaults)
    hd.tokens.symm hd.placed hd.lengths hneed
  exact ⟨p, s, parseScans_eq_ok_iff.2 hp, hitems, by rw [ht.errors]; rfl⟩

end Scans

theorem Collector.sorted_eq_nil_iff {c : Collector} : c.sorted = [] ↔ c.errors = [] := by
  have := c.sorted_perm.length_eq
  rw [← List.length_eq_zero_iff, this, List.length_eq_zero_iff]

/-- A parse without diagnostics gives what a derivation denotes, and every derivation is read so. -/
theorem parse_eq_ok_iff {text file : String} {o : Options} {items : List Item} :
    (∃ r, parse text file o = .ok r ∧ r.diagnostics = [] ∧ r.program.items = items) ↔
      Scan.faults (scansOf text file) = [] ∧
        ∃ d : Grammar.Program, d.Derives text file o.maxDepth.toNat ∧ d.trees = items := by
  constructor
  · rintro ⟨r, hr, hclean, rfl⟩
    obtain ⟨s, hs, hdiagnostics⟩ := parseScans_of_parse hr
    rw [hdiagnostics, Collector.sorted_eq_nil_iff] at hclean
    exact derives_of_parseScans o.one_le_maxErrors hs hclean
  · rintro ⟨hfaults, d, hd, rfl⟩
    obtain ⟨p, s, hps, hitems, herrors⟩ := parseScans_of_derives o.one_le_maxErrors hfaults hd
    obtain ⟨r, hr, rfl, hdiagnostics⟩ := parse_of_parseScans hps
    exact ⟨r, hr, by rw [hdiagnostics, Collector.sorted_eq_nil_iff, herrors], hitems⟩

/-- **The parser accepts exactly its language:** with the front end, whatever the options; and for
every bound on nesting and on diagnostics, also beyond what the options allow. -/
theorem parse_isClean_iff (text file : String) :
    (∀ o : Options, (∃ r, parse text file o = .ok r ∧ r.diagnostics = []) ↔
      InLanguage text file o.maxDepth.toNat) ∧
    ∀ m n : Int, 1 ≤ n →
      ((∃ p s, parseScans ⟨.ofText file text, m⟩ { capacity := n } .shared (scansOf text file) =
        .ok (p, s) ∧ s.errors.errors = []) ↔ InLanguage text file m.toNat) := by
  refine ⟨fun o => ⟨?_, ?_⟩, fun m n hn => ⟨?_, ?_⟩⟩
  · rintro ⟨r, hr, hclean⟩
    obtain ⟨hfaults, d, hd, -⟩ := parse_eq_ok_iff.1 ⟨r, hr, hclean, rfl⟩
    exact ⟨hfaults, d, hd⟩
  · rintro ⟨hfaults, d, hd⟩
    obtain ⟨r, hr, hclean, -⟩ := parse_eq_ok_iff.2 ⟨hfaults, d, hd, rfl⟩
    exact ⟨r, hr, hclean⟩
  · rintro ⟨p, s, hps, hs⟩
    obtain ⟨hfaults, d, hd, -⟩ := derives_of_parseScans hn hps hs
    exact ⟨hfaults, d, hd⟩
  · rintro ⟨hfaults, d, hd⟩
    obtain ⟨p, s, hps, -, hs⟩ := parseScans_of_derives hn hfaults hd
    exact ⟨p, s, hps, hs⟩

/-- An assignment takes one level for itself and one for its value, so it needs a bound of two. -/
theorem inLanguage_assignment :
    InLanguage "a := b;" "m.arc" 2 ∧ ¬ InLanguage "a := b;" "m.arc" 1 := by
  constructor
  · have h : (parse "a := b;" "m.arc" { maxDepth := 2 }).toOption.map Parsed.isClean =
        some true := by
      decide +kernel
    obtain ⟨r, hp, hclean⟩ := exists_of_map_toOption h
    exact ((parse_isClean_iff "a := b;" "m.arc").1 { maxDepth := 2 }).1
      ⟨r, hp, List.isEmpty_iff.1 hclean⟩
  · intro hin
    obtain ⟨p, s, hps, hs⟩ := ((parse_isClean_iff "a := b;" "m.arc").2 1 1 (by decide)).2 hin
    have h : (parseScans ⟨.ofText "m.arc" "a := b;", 1⟩ { capacity := 1 } .shared
        (scansOf "a := b;" "m.arc")).toOption.map (fun r => r.2.errors.kept.size) = some 1 := by
      decide +kernel
    rw [hps] at h
    have hsize : s.errors.errors.length = 1 := Option.some.inj h
    rw [hs] at hsize
    cases hsize

end ArcLang
