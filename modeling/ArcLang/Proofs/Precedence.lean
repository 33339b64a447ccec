import ArcLang.Parsed
import ArcLang.Proofs.ProgramSoundness

/-!
# Precedence in all trees

Operators are grouped by the precedence table in every program that a parse returns, also where
the text has faults and items were left out.

* `parse_grouped`: the statement for texts.
-/

namespace ArcLang

theorem parseScans_eq_ok_iff {setting : Setting} {errors : Collector} {faults : FaultSink}
    {scans : List Scan} {p : Program} {s : State} :
    parseScans setting errors faults scans = .ok (p, s) ↔
      Parser.Gives Parser.program setting { pending := scans, errors, faults } p s := by
  unfold parseScans Parser.Gives
  cases Parser.program setting { pending := scans, errors, faults } with
  | ok q s' => simp
  | error e s' => simp

/-- Whatever scans a parse starts from, and wherever it puts their faults, its program is
grouped. -/
theorem parseScans_grouped {setting : Setting} {errors : Collector} {faults : FaultSink}
    {scans : List Scan} {p : Program} {s : State}
    (h : parseScans setting errors faults scans = .ok (p, s)) :
    (Node.program p).Throughout Node.Grouped :=
  (Parser.program_sound (parseScans_eq_ok_iff.1 h)).1

/-- What a parse returns is the program that the parser built. -/
theorem parseScans_of_parse {text file : String} {o : Options} {r : Parsed}
    (h : parse text file o = .ok r) : ∃ s,
      parseScans ⟨.ofText file text, o.maxDepth⟩ { capacity := o.maxErrors } .shared
        (scan (.ofText file text) text) = .ok (r.program, s) ∧ r.diagnostics = s.errors.sorted := by
  unfold parse at h
  dsimp only at h
  cases hp : parseScans ⟨.ofText file text, o.maxDepth⟩ { capacity := o.maxErrors } .shared
      (scan (.ofText file text) text) with
  | error why => rw [hp] at h; cases h
  | ok result => rw [hp] at h; cases h; exact ⟨result.2, rfl, rfl⟩

/-- A parse returns what the parser built. -/
theorem parse_of_parseScans {text file : String} {o : Options} {p : Program} {s : State}
    (h : parseScans ⟨.ofText file text, o.maxDepth⟩ { capacity := o.maxErrors } .shared
      (scan (.ofText file text) text) = .ok (p, s)) :
    ∃ r, parse text file o = .ok r ∧ r.program = p ∧ r.diagnostics = s.errors.sorted := by
  unfold parse
  dsimp only
  rw [h]
  exact ⟨_, rfl, rfl, rfl⟩

/-- What is seen of an outcome is seen of a result. -/
theorem exists_of_map_toOption {ε α β : Type} {x : Except ε α} {f : α → β} {b : β}
    (h : x.toOption.map f = some b) : ∃ a, x = .ok a ∧ f a = b := by
  cases x with
  | error why => cases h
  | ok a => exact ⟨a, rfl, Option.some.inj h⟩

/-- **Every program that a parse returns is grouped by precedence,** whether the text has faults or
not: operators of one level group to the left, looser ones outside tighter ones, unary operators
and accesses apply to operands, and only places are assigned to. So it is with the front end; and
for every setting and whatever scans a parse starts from, also beyond what the options allow. -/
theorem parse_grouped :
    (∀ {text file : String} {o : Options} {r : Parsed}, parse text file o = .ok r →
      (Node.program r.program).Throughout Node.Grouped) ∧
    ∀ {setting : Setting} {errors : Collector} {faults : FaultSink} {scans : List Scan}
      {p : Program} {s : State}, parseScans setting errors faults scans = .ok (p, s) →
        (Node.program p).Throughout Node.Grouped := by
  refine ⟨fun h => ?_, parseScans_grouped⟩
  obtain ⟨s, hs, -⟩ := parseScans_of_parse h
  exact parseScans_grouped hs

/-- The second of these statements is broken and left out. The other text is parsed with more room
for nesting than the options give. -/
theorem parse_grouped_of_broken :
    (∃ r, parse "a := b - c - d; ) x; !f(-y.z);" "m.arc" {} = .ok r ∧ r.isClean = false ∧
      (Node.program r.program).Throughout Node.Grouped) ∧
    ∃ p s, parseScans ⟨.ofText "m.arc" "!f(-y.z);", 5000⟩ { capacity := 1 } .shared
      (scan (.ofText "m.arc" "!f(-y.z);") "!f(-y.z);") = .ok (p, s) ∧
        (Node.program p).Throughout Node.Grouped := by
  constructor
  · have h : (parse "a := b - c - d; ) x; !f(-y.z);" "m.arc" {}).toOption.map Parsed.isClean =
        some false := by decide +kernel
    obtain ⟨r, hp, hbroken⟩ := exists_of_map_toOption h
    exact ⟨r, hp, hbroken, parse_grouped.1 hp⟩
  · have h : (parseScans ⟨.ofText "m.arc" "!f(-y.z);", 5000⟩ { capacity := 1 } .shared
        (scan (.ofText "m.arc" "!f(-y.z);") "!f(-y.z);")).toOption.map
          (fun result => result.1.items.length) = some 1 := by
      decide +kernel
    obtain ⟨⟨p, s⟩, hp, -⟩ := exists_of_map_toOption h
    exact ⟨p, s, hp, parse_grouped.2 hp⟩

end ArcLang
