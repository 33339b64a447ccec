import ArcLang.Proofs.Language
import ArcLang.Proofs.Rederiving

/-!
# Writing out and parsing

A canonical program that is written out and parsed again comes back as it was, but for the spans.

* `Program.written`: a program as a text.
* `parse_written`: the statement.
-/

namespace ArcLang

/-- A program written out: its tokens in order, with single blanks between them. Lengths are written
in decimal, and no comma stands behind a last element. -/
def Program.written (p : Program) : String := Mark.written p.marks

section Derivation

variable {p : Program} (h : (Node.program p).Throughout Node.Canonical)

include h

/-- What has the items of a canonical program, spans apart, assigns to places only. -/
theorem placed_of_erased {items : List Item}
    (hitems : items.map Item.erased = p.items.map Item.erased) :
    ∀ i ∈ items, (Node.ofItem i).Throughout Node.AssignsToPlace := by
  intro i hi
  obtain ⟨j, hj, herased⟩ := List.mem_map.1 (hitems ▸ List.mem_map_of_mem hi)
  have hplaced : (Node.ofItem j).Throughout Node.AssignsToPlace :=
    (h.child (List.mem_map_of_mem hj)).imp fun _ hn => hn.grouped.assignsToPlace
  rwa [← Node.throughout_erased fun _ => Node.assignsToPlace_erased, ← Node.ofItem_erased, herased,
    Node.ofItem_erased, Node.throughout_erased fun _ => Node.assignsToPlace_erased] at hplaced

/-- Of the program as it is written there is a derivation that denotes the program, spans apart. -/
theorem derives_written (file : String) {depth : Nat} (hneed : p.need ≤ depth) :
    Scan.faults (scansOf p.written file) = [] ∧ ∃ d : Grammar.Program,
      d.Derives p.written file depth ∧ d.trees.map Item.erased = p.items.map Item.erased := by
  obtain ⟨ts, e, hscan, hend, hfits, hspells⟩ :=
    scanFrom_written (.ofText file p.written) (Program.lexical_marks h) .start
  have hscan : scansOf p.written file = ts.map .token ++ [.token e] := hscan
  obtain ⟨d, rfl, htrees, hlengths⟩ := Program.derivable h hfits
  obtain ⟨hfaults, htokens⟩ := Scan.faults_and_beforeEnd hend hspells
  rw [← hscan] at hfaults htokens
  have hneeds : needMost Item.need d.trees = p.need := by
    rw [← needMost_map Item.need_erased, htrees, needMost_map Item.need_erased]
    rfl
  exact ⟨hfaults, d, ⟨htokens.symm, placed_of_erased h htrees, hlengths, hneeds.trans_le hneed⟩,
    htrees⟩

end Derivation

/-- **Parsing undoes writing out:** with the front end, whatever the options; and for every bound on
nesting and on diagnostics, also beyond what the options allow. -/
theorem parse_written {p : Program} (h : (Node.program p).Throughout Node.Canonical)
    (file : String) :
    (∀ o : Options, p.need ≤ o.maxDepth → ∃ r, parse p.written file o = .ok r ∧
      r.diagnostics = [] ∧ r.program.sameShape p = true) ∧
    ∀ m n : Int, 1 ≤ n → p.need ≤ m → ∃ q s,
      parseScans ⟨.ofText file p.written, m⟩ { capacity := n } .shared
        (scansOf p.written file) = .ok (q, s) ∧
      s.errors.errors = [] ∧ q.sameShape p = true := by
  have hshape : ∀ q : Program, q.items.map Item.erased = p.items.map Item.erased →
      q.sameShape p = true := by
    intro q hq
    rw [Program.sameShape_iff]
    exact congrArg (Program.mk Span.blank) hq
  refine ⟨fun o hneed => ?_, fun m n hn hneed => ?_⟩
  · obtain ⟨hfaults, d, hd, htrees⟩ := derives_written h file (by omega : p.need ≤ o.maxDepth.toNat)
    obtain ⟨r, hr, hclean, hitems⟩ := parse_eq_ok_iff.2 ⟨hfaults, d, hd, rfl⟩
    exact ⟨r, hr, hclean, hshape _ (hitems ▸ htrees)⟩
  · obtain ⟨hfaults, d, hd, htrees⟩ := derives_written h file (by omega : p.need ≤ m.toNat)
    obtain ⟨q, s, hqs, hitems, hs⟩ := parseScans_of_derives hn hfaults hd
    exact ⟨q, s, hqs, hs, hshape _ (hitems ▸ htrees)⟩

/-- The program `struct s { a: [u8, 16] } x.y := -b + 0x1f * c;` without spans. -/
def sampleProgram : Program := ⟨.blank,
  [.struct ⟨.blank, "s", [⟨.blank, "a", .array .blank (.int .blank false .w8) 16⟩]⟩,
   .statement (.expression .blank (.assign .blank (.member .blank (.name .blank "x") "y") .assign
     (.binary .blank .add (.unary .blank .negate (.name .blank "b"))
       (.binary .blank .multiply (.number .blank "0x1f" .hexadecimal) (.name .blank "c")))))]⟩

theorem parse_written_sample :
    sampleProgram.written = "struct s \x7b a : [ u8 , 16 ] \x7d x . y := - b + 0x1f * c ;" ∧
    (∃ r, parse sampleProgram.written "m.arc" {} = .ok r ∧ r.diagnostics = [] ∧
      r.program.sameShape sampleProgram = true) ∧
    ∃ q s, parseScans ⟨.ofText "m.arc" sampleProgram.written, 5000⟩ { capacity := 1 } .shared
        (scansOf sampleProgram.written "m.arc") = .ok (q, s) ∧
      s.errors.errors = [] ∧ q.sameShape sampleProgram = true := by
  have canonical : (Node.program sampleProgram).Throughout Node.Canonical := by decide +kernel
  have parsed := parse_written canonical "m.arc"
  refine ⟨by decide +kernel, parsed.1 {} ?_, parsed.2 5000 1 (by decide) ?_⟩
  · decide +kernel
  · decide +kernel

end ArcLang
