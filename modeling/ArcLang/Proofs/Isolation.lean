import Mathlib.Data.List.Nodup
import ArcLang.Proofs.BrokenLines
import ArcLang.Proofs.Language
import ArcLang.Proofs.Positions

/-!
# Broken lines in a text

Lines that are no statement are put into a text that is accepted, between its items and between the
statements of its bodies. They do no harm beyond themselves: the program is the same but for its
spans, and there is one diagnostic for each line, inside of it.

* `Insertion.Breaks`: the lines.
* `parse_inserted`: the statement.
-/

namespace ArcLang

/-! ## The lines -/

/-- The garbage scans without faults, holds no comment, no semicolon, no brace and no word that
starts a statement or a definition, does not start with `else`, and is no statement with a semicolon
behind it. -/
structure Insertion.Breaks (i : Insertion) (file : String) (o : Options) : Prop where
  faultless : Scan.faults (scansOf i.garbage file) = []
  comment : ¬ ['/', '/'] <:+: i.garbage.toList
  ordinary : ∀ t ∈ Scan.beforeEnd (scansOf i.garbage file), t.kind.isOrdinary = true
  notElse : firstKind (Scan.beforeEnd (scansOf i.garbage file)) ≠ .keyword .elseWord
  rejected : ∃ r, parse i.line file o = .ok r ∧ r.diagnostics ≠ []

theorem firstKind_of_alike {ts us : List Token} (h : List.Forall₂ Token.Alike ts us) :
    firstKind us = firstKind ts := by
  cases h with
  | nil => rfl
  | cons h _ => exact h.kind

/-- What is in the second of two related lists is related to something in the first. -/
theorem exists_of_mem_forall₂ {α β : Type} {R : α → β → Prop} {as : List α} {bs : List β}
    (h : List.Forall₂ R as bs) {b : β} (hb : b ∈ bs) : ∃ a ∈ as, R a b := by
  induction h with
  | nil => cases hb
  | cons hab _ ih =>
    rcases List.mem_cons.1 hb with rfl | hb
    · exact ⟨_, List.mem_cons_self, hab⟩
    · obtain ⟨a, ha, hab⟩ := ih hb
      exact ⟨a, List.mem_cons_of_mem _ ha, hab⟩

namespace Insertion

variable {i : Insertion} {file : String} {o : Options}

theorem Breaks.scans (h : i.Breaks file o) : i.Scans where
  faultless source p := (scanFrom_alike source p h.faultless).1
  comment := h.comment

/-- The tokens of a line are those of its garbage and a semicolon. -/
theorem Scans.tokens_line (h : i.Scans) (source : Source) (p : Position) :
    Scan.faults (scanFrom source p i.line.toList) = [] ∧ ∃ stop : Token,
      stop.kind = .symbol .semicolon ∧ tokensFrom source p i.line.toList =
        tokensFrom source p i.garbage.toList ++ [stop] := by
  have hline : i.line.toList = i.garbage.toList ++ [';'] := String.toList_append
  have hjoin : Joins source p i.garbage.toList [';'] := joins_line (h.faultless source p) h.comment
  obtain ⟨htokens, hfaults⟩ := scanFrom_longest source
    (p.after i.garbage.toList) (rfl : trivia false [';'] = ([], [';'] ++ []))
    (isLongest_semicolon [])
  obtain ⟨hnone, hnone'⟩ := scanFrom_skipped source
    (((p.after i.garbage.toList).after []).after [';']) (rfl : trivia false [] = ([], []))
  rw [hline, hjoin.faults, hjoin.tokens]
  refine ⟨hfaults.trans hnone', _, ?_, congrArg _ (htokens.trans (congrArg _ hnone))⟩
  rfl

/-- A line that is rejected is no statement, wherever it stands. -/
theorem Breaks.brokenLine (h : i.Breaks file o) (source : Source) (p : Position) :
    BrokenLine o.maxDepth.toNat (tokensFrom source p i.line.toList) := by
  obtain ⟨hfaults, stop, hstop, hline⟩ := h.scans.tokens_line source p
  obtain ⟨-, halike⟩ := scanFrom_alike source p h.faultless
  have hgarbage : ∀ t ∈ tokensFrom source p i.garbage.toList,
      t.kind.isOrdinary = true ∧ t.isError = false := by
    intro t ht
    obtain ⟨u, hu, hut⟩ := exists_of_mem_forall₂ halike ht
    have herror := (Scan.faults_scan_eq_nil_iff _ _).1 h.faultless u hu
    unfold Token.isError at herror ⊢
    rw [hut.kind]
    exact ⟨h.ordinary u hu, herror⟩
  refine ⟨⟨_, stop, hline, hstop, fun t ht => (hgarbage t ht).1⟩, ?_, ?_, ?_⟩
  · rw [hline]
    cases hts : tokensFrom source p i.garbage.toList with
    | nil =>
      rw [List.nil_append, firstKind_cons, hstop]
      decide
    | cons t ts =>
      rw [List.cons_append, firstKind_cons]
      have hkind : firstKind (t :: ts) = firstKind (Scan.beforeEnd (scansOf i.garbage file)) :=
        hts ▸ firstKind_of_alike halike
      rw [firstKind_cons] at hkind
      rw [hkind]
      exact h.notElse
  · rw [hline]
    refine List.forall_mem_append.2 ⟨fun t ht => (hgarbage t ht).2, List.forall_mem_singleton.2 ?_⟩
    unfold Token.isError
    rw [hstop]
    rfl
  · -- a statement of these tokens would be one of the tokens of the line on its own
    intro e semicolon he hplaced
    by_contra hneed
    let d : Grammar.Program := ⟨[.statement (.expression e semicolon)]⟩
    have htokens : d.tokens = tokensFrom source p i.line.toList := by
      simpa [d, Grammar.Program.tokens, Grammar.Item.tokens, Grammar.Statement.tokens] using he
    obtain ⟨hfaults', halike'⟩ := scanFrom_alike (.ofText file i.line) .start hfaults
    obtain ⟨f, hf⟩ := Respanning.exists_of_alike (tokensFrom_nodup source p i.line.toList) halike'
    have hderives : (f.program d).Derives i.line file o.maxDepth.toNat := by
      refine ⟨?_, f.placed_program ?_, f.resolve_program ?_, ?_⟩
      · rw [f.tokens_program, htokens, hf]
        rfl
      · exact List.forall_mem_singleton.2
          (Node.throughout_iff.2 ⟨trivial, List.forall_mem_singleton.2 hplaced⟩)
      · exact List.forall_mem_nil _
      · rw [f.need_program]
        exact needMost_le_iff.2 (List.forall_mem_singleton.2 (Nat.le_of_not_lt hneed))
    obtain ⟨r, hr, hclean, -⟩ := parse_eq_ok_iff.2 ⟨hfaults', f.program d, hderives, rfl⟩
    obtain ⟨r', hr', hdiagnostics⟩ := h.rejected
    rw [hr] at hr'
    cases hr'
    exact hdiagnostics hclean

/-- The diagnostic is at one of the characters of the line, which starts at the offset. -/
def Locates (place : Nat × Insertion) (d : Diagnostic) : Prop :=
  ∃ l, d.place = some l ∧ (place.1 : Int) ≤ l.offset ∧
    l.offset < place.1 + place.2.line.toList.length

/-- A diagnostic at a token of a line is inside of the line. -/
theorem locates_of_blames {source : Source} {p : Position} {place : Nat × Insertion}
    (hp : p.offset = place.1) {d : Diagnostic}
    (h : Blames (tokensFrom source p place.2.line.toList) d) : Locates place d := by
  obtain ⟨t, ht, hplace⟩ := h
  obtain ⟨hstart, hwide, hstop⟩ := (tokensFrom_ordered source p place.2.line.toList).1 t ht
  rw [Position.offset_after, hp] at hstop
  rw [hp] at hstart
  refine ⟨t.place, hplace, hstart, ?_⟩
  have hlt : t.place.offset < t.span.stop.offset := hwide
  push_cast at hstop
  omega

/-- Diagnostics at tokens of lines, one by one, are inside of the lines. -/
theorem forall₂_locates {source : Source} {places : List (Nat × Insertion)}
    {lines : List (List Token)} {ds : List Diagnostic}
    (h : List.Forall₂ (fun place g => ∃ p : Position, p.offset = place.1 ∧
      g = tokensFrom source p place.2.line.toList) places lines)
    (hblames : List.Forall₂ Blames lines ds) : List.Forall₂ Locates places ds := by
  induction h generalizing ds with
  | nil =>
    cases hblames
    exact .nil
  | cons hline _ ih =>
    obtain ⟨p, hp, rfl⟩ := hline
    cases hblames with
    | cons hblame hrest => exact .cons (locates_of_blames hp hblame) (ih hrest)

/-- Each line stands behind the one before it. -/
theorem pairwise_placesFrom {is : List Insertion} (more : Nat)
    (h : is.Pairwise fun i j => i.offset ≤ j.offset) :
    (placesFrom more is).Pairwise fun a b => a.1 + a.2.line.toList.length ≤ b.1 := by
  have hlater (least more : Nat) (is : List Insertion) (hleast : ∀ i ∈ is, least ≤ i.offset) :
      ∀ b ∈ placesFrom more is, more + least ≤ b.1 := by
    induction is generalizing more with
    | nil => exact List.forall_mem_nil _
    | cons i is ih =>
      obtain ⟨hi, his⟩ := List.forall_mem_cons.1 hleast
      refine List.forall_mem_cons.2 ⟨?_, fun b hb => ?_⟩
      · show more + least ≤ more + i.offset + i.lead.toList.length
        omega
      · have := ih (more + i.text.length) his b hb
        omega
  induction is generalizing more with
  | nil => exact .nil
  | cons i is ih =>
    obtain ⟨hi, his⟩ := List.pairwise_cons.1 h
    refine List.pairwise_cons.2 ⟨fun b hb => ?_, ih _ his⟩
    have hb := hlater i.offset _ is hi b hb
    have hlength : i.text.length =
        i.lead.toList.length + (i.line.toList.length + i.trail.toList.length) := by
      simp [Insertion.text]
    show more + i.offset + i.lead.toList.length + i.line.toList.length ≤ b.1
    omega

end Insertion

/-! ## The parse -/

/-- What relates to ordered things one by one is ordered alike. -/
theorem pairwise_of_forall₂ {α β : Type} {R : α → β → Prop} {S : α → α → Prop} {T : β → β → Prop}
    {as : List α} {bs : List β} (h : List.Forall₂ R as bs) (has : as.Pairwise S)
    (hT : ∀ {a a' b b'}, R a b → R a' b' → S a a' → T b b') : bs.Pairwise T := by
  induction h with
  | nil => exact .nil
  | @cons a b as bs hab hrest ih =>
    obtain ⟨ha, has⟩ := List.pairwise_cons.1 has
    refine List.pairwise_cons.2 ⟨fun b' hb' => ?_, ih has⟩
    obtain ⟨a', ha', hab'⟩ := exists_of_mem_forall₂ hrest hb'
    exact hT hab hab' (ha a' ha')

open Insertion (insertFrom insertAll placesFrom Locates)

/-- Diagnostics inside of lines are listed in the order of the lines. -/
theorem sorted_eq_of_locates {is : List Insertion}
    (horder : is.Pairwise fun i j => i.offset ≤ j.offset) {c : Collector}
    (h : List.Forall₂ Locates (placesFrom 0 is) c.errors) : c.sorted = c.errors := by
  have hpairwise : c.errors.Pairwise fun d d' => Collector.precedes d d' = true := by
    refine pairwise_of_forall₂ h (Insertion.pairwise_placesFrom 0 horder) ?_
    rintro a a' d d' ⟨l, hl, -, hstop⟩ ⟨l', hl', hstart, -⟩ hle
    unfold Collector.precedes
    rw [hl, hl']
    simp only [decide_eq_true_eq]
    omega
  exact List.mergeSort_of_pairwise hpairwise

/-- Before a closed token no lines have been put, if none stands first behind their places. -/
theorem Weaves.quiet {source : Source} {d : Grammar.Program} {f : Respanning}
    {places : List (Nat × Insertion)} {rs : List Token} {before : Token → List (List Token)}
    {atEnd : List (List Token)}
    (h : Weaves source d.tokens places rs (d.tokens.map f.apply) before atEnd)
    (hnodup : (d.tokens.map f.apply).Nodup)
    (hclosed : ∀ i ∈ places.map Prod.snd, ∀ t ∈ d.closed, ¬ FirstFrom i.offset d.tokens t) :
    ∀ t ∈ (f.program d).closed, before t = [] := by
  rw [f.closed_program]
  refine List.forall_mem_map.2 fun t ht => ?_
  by_contra hne
  obtain ⟨i, hi, u, hu, hfirst⟩ := h.first _ hne
  -- the token that the lines stand before is this one
  obtain ⟨hmem, -⟩ := List.of_mem_zip hu
  have hsame : f.apply u = f.apply t := by
    rw [← List.map_prod_left_eq_zip] at hu
    obtain ⟨v, -, heq⟩ := List.mem_map.1 hu
    obtain ⟨rfl, hv⟩ := Prod.mk.inj heq
    exact hv
  obtain rfl := List.inj_on_of_nodup_map hnodup hmem (d.mem_of_mem_closed t ht) hsame
  exact hclosed i hi u ht hfirst

/-- The lines are put into the text in their order, each at a position of a statement. -/
structure Inserts (text : String) (p : Program) (is : List Insertion) : Prop where
  ordered : is.Pairwise fun i j => i.offset ≤ j.offset
  inside : ∀ i ∈ is, i.offset ≤ text.toList.length
  fits : ∀ i ∈ is, i.Fits (text.toList.take i.offset) (text.toList.drop i.offset)
  position : ∀ i ∈ is, p.IsPosition i.offset

/-- The tokens of the result: those of the text but for their spans, with the lines put in between
where a line may stand. -/
theorem Inserts.exists_weaving {text : String} {source : Source} (source' : Source) {p : Program}
    {is : List Insertion} {d : Grammar.Program} (h : Inserts text p is)
    (hfaults : Scan.faults (scan source text) = [])
    (htokens : d.tokens = tokensFrom source .start text.toList) (htrees : p.items = d.trees)
    (hscans : ∀ i ∈ is, i.Scans) :
    Scan.faults (scan source' (insertAll text is)) = [] ∧
      ∃ (f : Respanning) (before : Token → List (List Token)) (atEnd : List (List Token)),
        Weaves source' d.tokens (placesFrom 0 is)
          (Scan.beforeEnd (scan source' (insertAll text is))) (f.program d).tokens before atEnd ∧
        ∀ t ∈ (f.program d).closed, before t = [] := by
  have hstanding : Standing d.tokens := htokens ▸ standing_beforeEnd _ _
  have hposition (i : Insertion) (hi : i ∈ is) :=
    Grammar.Program.not_firstFrom_of_position htrees (h.position i hi) hstanding
  have hzero : Position.start.offset = 0 := rfl
  have hresult : (insertAll text is).toList = insertFrom 0 text.toList is := String.toList_ofList
  have hinsertable : Insertable source .start 0 text.toList is :=
    { ordered := List.pairwise_cons.2 ⟨fun _ _ => Nat.zero_le _, List.pairwise_map.2 h.ordered⟩
      inside := fun i hi => (h.inside i hi).trans_eq (Nat.zero_add _).symm
      fits := h.fits
      clear := fun i hi => htokens ▸ (hposition i hi).1 }
  obtain ⟨hfaults', ts, before, atEnd, hweaves⟩ := scanFrom_inserted source source' (q := .start)
    (p := .start) hzero (hzero.trans (Nat.add_zero 0).symm) hfaults hinsertable hscans
  rw [← hresult] at hfaults' hweaves
  rw [← htokens] at hweaves
  have hnodup : d.tokens.Nodup := htokens ▸ tokensFrom_nodup source .start text.toList
  obtain ⟨f, rfl⟩ := Respanning.exists_of_alike hnodup hweaves.alike
  have hnodup' : (d.tokens.map f.apply).Nodup := by
    refine (tokensFrom_nodup source' .start (insertAll text is).toList).sublist ?_
    rw [hweaves.tokens]
    exact (sublist_weave before _).trans (List.sublist_append_left _ _)
  refine ⟨hfaults', f, before, atEnd, f.tokens_program d ▸ hweaves, hweaves.quiet hnodup' ?_⟩
  intro i hi
  rw [map_snd_placesFrom] at hi
  exact (hposition i hi).2

namespace Parser

open State (Mends Spares)

/-- **With broken lines in between a program is read,** and each line is reported; or a diagnostic
tells that the nesting is too deep. -/
theorem program_isolates {env : Setting} {s : State} {d : Grammar.Program}
    {before : Token → List (List Token)} {more : List (List Token)}
    (hbroken : ∀ line, (∃ t, line ∈ before t) ∨ line ∈ more → BrokenLine env.room line)
    (hs : s.Spares (d.tokens.flatMap before ++ more).length)
    (hi : s.input = weave before d.tokens ++ more.flatten)
    (hplaced : ∀ i ∈ d.trees, (Node.ofItem i).Throughout Node.AssignsToPlace)
    (hlengths : Grammar.Resolve d.lengths) (hneed : needMost Item.need d.trees ≤ env.room)
    (hquiet : ∀ t ∈ d.closed, before t = []) : ∃ p s', Gives program env s p s' ∧
      ((p.items = d.trees ∧ s.Mends (weave before d.tokens ++ more.flatten)
        (d.tokens.flatMap before ++ more) s') ∨
          ∃ why ∈ s'.errors.errors, why.cause = .tooDeep env.maxDepth) := by
  have hlines : SkipsLines env (StopsDeep env) before env.room := fun k hk line hline =>
    performs_statementLine ((hbroken line (.inl hline)).mono hk.le) _
  have hskip : ∀ line, (∃ t, line ∈ before t) ∨ line ∈ more →
      Performs env Never (ToldDeep env) (itemStep env.room) (.skip line) := fun line hline =>
    performs_itemLine (hbroken line hline)
  have hrun := program_restores (halting_deep env) hlines hskip hs hi hplaced hlengths hneed hquiet
  obtain ⟨p, s', hp, hread | ⟨s₁, ⟨-, why, hwhy, hcause⟩, hc⟩⟩ := hrun.exists_gives
  · exact ⟨p, s', hp, .inl hread⟩
  · exact ⟨p, s', hp, .inr ⟨why, hc.errors.subset hwhy, hcause⟩⟩

end Parser

/-- **Recovery isolates broken lines:** an accepted text with fewer of them put into it than there
may be diagnostics is parsed to the same program but for its spans, with one diagnostic for each
line, inside of it and in their order; unless a diagnostic tells that the nesting was too deep. -/
theorem parse_inserted {text file : String} {o : Options} {r₀ : Parsed} {is : List Insertion}
    (hparse : parse text file o = .ok r₀) (hclean : r₀.diagnostics = [])
    (hinserts : Inserts text r₀.program is) (hbreaks : ∀ i ∈ is, i.Breaks file o)
    (hfew : is.length < o.maxErrors) :
    ∃ r, parse (insertAll text is) file o = .ok r ∧
      ((∀ d ∈ r.diagnostics, d.category ≠ .recursionLimit) →
        List.Forall₂ Locates (placesFrom 0 is) r.diagnostics ∧
          r.program.sameShape r₀.program = true) := by
  obtain ⟨hfaults, d, hd, htrees⟩ := parse_eq_ok_iff.1 ⟨r₀, hparse, hclean, rfl⟩
  let env : Setting := ⟨.ofText file (insertAll text is), o.maxDepth⟩
  obtain ⟨hfaults', f, before, atEnd, hweaves, hquiet⟩ := hinserts.exists_weaving env.source
    hfaults hd.tokens htrees.symm fun i hi => (hbreaks i hi).scans
  have hlines := hweaves.lines
  have hbroken : ∀ line, (∃ t, line ∈ before t) ∨ line ∈ atEnd → BrokenLine env.room line := by
    intro line hline
    have hmem : line ∈ (f.program d).tokens.flatMap before ++ atEnd := by
      rcases hline with ⟨t, ht⟩ | hline
      · obtain ⟨-, -, u, hu, -⟩ := hweaves.first t (List.ne_nil_of_mem ht)
        exact List.mem_append_left _ (List.mem_flatMap.2 ⟨t, (List.of_mem_zip hu).2, ht⟩)
      · exact List.mem_append_right _ hline
    obtain ⟨place, hplace, p, -, rfl⟩ := exists_of_mem_forall₂ hlines hmem
    have hmem := List.mem_map_of_mem (f := Prod.snd) hplace
    rw [map_snd_placesFrom] at hmem
    exact (hbreaks place.2 hmem).brokenLine _ _
  have hspares : (startOf (insertAll text is) file o.maxErrors).Spares
      ((f.program d).tokens.flatMap before ++ atEnd).length := by
    refine ⟨hfaults', ?_⟩
    have hlength : (placesFrom 0 is).length = is.length := by
      rw [← List.length_map Prod.snd, map_snd_placesFrom]
    rw [← hlines.length_eq, hlength]
    show ((0 + is.length : Nat) : Int) < o.maxErrors
    omega
  have hneed : needMost Item.need (f.program d).trees ≤ env.room := f.need_program d ▸ hd.need
  obtain ⟨p, s', hp, hend⟩ := Parser.program_isolates hbroken hspares hweaves.tokens
    (f.placed_program hd.placed) (f.resolve_program hd.lengths) hneed hquiet
  obtain ⟨r, hr, rfl, hdiagnostics⟩ := parse_of_parseScans (parseScans_eq_ok_iff.2 hp)
  refine ⟨r, hr, fun hshallow => ?_⟩
  rw [hdiagnostics] at hshallow ⊢
  rcases hend with ⟨hitems, hm⟩ | ⟨why, hwhy, hcause⟩
  · obtain ⟨-, ds, hds, hblames⟩ := hm
    have herrors : s'.errors.errors = ds := hds
    have hlocates : List.Forall₂ Locates (placesFrom 0 is) s'.errors.errors :=
      herrors ▸ Insertion.forall₂_locates hlines hblames
    refine ⟨(sorted_eq_of_locates hinserts.ordered hlocates).symm ▸ hlocates, ?_⟩
    rw [Program.sameShape_iff]
    unfold Program.erased
    rw [hitems, f.erased_program, htrees]
  · have hmem : why ∈ s'.errors.sorted := s'.errors.sorted_perm.mem_iff.2 hwhy
    refine absurd ?_ (hshallow why hmem)
    unfold Diagnostic.category
    rw [hcause]
    rfl

/-- Whether a text is rejected, as it is decided. -/
theorem exists_of_not_isClean {text file : String} {o : Options}
    (h : (parse text file o).toOption.map Parsed.isClean = some false) :
    ∃ r, parse text file o = .ok r ∧ r.diagnostics ≠ [] := by
  obtain ⟨r, hparse, hfalse⟩ := exists_of_map_toOption h
  exact ⟨r, hparse, fun hnil => by rw [Parsed.isClean, hnil] at hfalse; cases hfalse⟩

/-- A line in a body and one behind the last item, of which the second has no garbage at all. -/
theorem parse_inserted_sample :
    ∃ r₀ r, parse "while a \x7b\n  b();\n\x7d\n" "m.arc" {} = .ok r₀ ∧ r₀.isClean = true ∧
      parse "while a \x7b\n  a b;\n  b();\n\x7d\n;\n" "m.arc" {} = .ok r ∧
        r.diagnostics.length = 2 ∧ r.program.sameShape r₀.program = true := by
  let text : String := "while a \x7b\n  b();\n\x7d\n"
  let inner : Insertion := ⟨9, "\n  ", "a b", ""⟩
  let last : Insertion := ⟨19, "", "", "\n"⟩
  have hread : ((parse text "m.arc" {}).toOption.map fun r => decide (r.diagnostics.length = 0 ∧
      r.program.IsPosition 9 ∧ r.program.IsPosition 19)) = some true := by
    decide +kernel
  cases hparse : parse text "m.arc" {} with
  | error why => rw [hparse] at hread; cases hread
  | ok r₀ =>
    rw [hparse] at hread
    obtain ⟨hclean, hinner, hlast⟩ := of_decide_eq_true (Option.some.inj hread)
    have hfits : inner.Fits (text.toList.take 9) (text.toList.drop 9) := by
      have hbefore : text.toList.take 9 ++ inner.lead.toList =
          "while a \x7b".toList ++ '\n' :: "  ".toList := by decide +kernel
      refine ⟨by decide, hbefore ▸ Fresh.behind_break (by decide), ?_⟩
      -- the place is at the end of its line
      rintro ⟨⟨c, hc, hne⟩, -⟩
      have hbreak : (text.toList.drop 9).head? = some '\n' := by decide +kernel
      exact hne (Option.some.inj (hc.symm.trans hbreak))
    have hfits' : last.Fits (text.toList.take 19) (text.toList.drop 19) := by
      have hbefore : text.toList.take 19 ++ last.lead.toList =
          "while a \x7b\n  b();\n\x7d".toList ++ '\n' :: [] := by decide +kernel
      refine ⟨by decide, hbefore ▸ Fresh.behind_break (by decide), ?_⟩
      rintro ⟨⟨c, hc, -⟩, -⟩
      have hnil : (text.toList.drop 19).head? = none := by decide +kernel
      cases hc.symm.trans hnil
    have hinserts : Inserts text r₀.program [inner, last] := by
      refine ⟨by decide, by decide +kernel, ?_, ?_⟩
      · exact List.forall_mem_cons.2 ⟨hfits, List.forall_mem_singleton.2 hfits'⟩
      · exact List.forall_mem_cons.2 ⟨hinner, List.forall_mem_singleton.2 hlast⟩
    have hbreaks : ∀ i ∈ [inner, last], i.Breaks "m.arc" {} := by
      refine List.forall_mem_cons.2 ⟨⟨?_, by decide +kernel, ?_, ?_, exists_of_not_isClean ?_⟩,
        List.forall_mem_singleton.2 ⟨?_, by decide +kernel, ?_, ?_, exists_of_not_isClean ?_⟩⟩
      · exact List.isEmpty_iff.1 (by decide +kernel)
      · decide +kernel
      · decide +kernel
      · decide +kernel
      · exact List.isEmpty_iff.1 (by decide +kernel)
      · decide +kernel
      · decide +kernel
      · decide +kernel
    obtain ⟨r, hr, hisolated⟩ := parse_inserted hparse (List.length_eq_zero_iff.1 hclean) hinserts
      hbreaks (by decide)
    have hresult : insertAll text [inner, last] = "while a \x7b\n  a b;\n  b();\n\x7d\n;\n" := by
      decide +kernel
    rw [hresult] at hr
    have hkept : (parseScans ⟨.ofText "m.arc" "while a \x7b\n  a b;\n  b();\n\x7d\n;\n", 64⟩
        { capacity := 100 } .shared (scansOf "while a \x7b\n  a b;\n  b();\n\x7d\n;\n"
          "m.arc")).toOption.map (fun x => decide (∀ d ∈ x.2.errors.errors,
            d.category ≠ .recursionLimit)) = some true := by
      decide +kernel
    obtain ⟨s, hs, hdiagnostics⟩ := parseScans_of_parse hr
    rw [hs] at hkept
    have hshallow : ∀ d ∈ r.diagnostics, d.category ≠ .recursionLimit := by
      intro d hd
      rw [hdiagnostics, s.errors.sorted_perm.mem_iff] at hd
      exact of_decide_eq_true (Option.some.inj hkept) d hd
    obtain ⟨hlocates, hshape⟩ := hisolated hshallow
    refine ⟨r₀, r, rfl, ?_, hr, hlocates.length_eq.symm, hshape⟩
    unfold Parsed.isClean
    rw [List.length_eq_zero_iff.1 hclean]
    rfl

end ArcLang
