import ArcLang.Proofs.Shifting
import ArcLang.Proofs.Unwinding

/-!
# Texts without their last braces

If a text is accepted with closing braces on a line behind it, and blocks end with these, then the
text alone has one diagnostic for each of the blocks, as far as there is room.

* `Block.unclosed`: the diagnostic.
* `parse_tells_unclosed`: the statement.
-/

namespace ArcLang

/-- What is reported where a block is not closed when the input ends. -/
def Block.unclosed (source : Source) (stop : Location) (b : Block) : Diagnostic :=
  let place := s!"{b.span.start.line}:{b.span.start.column}"
  .ofPlace source stop (.missingToken "'\x7d'" (some s!"to match '\x7b' at {place}"))

/-- So many closing braces. -/
def closingBraces (n : Nat) : List Char := List.replicate n '\x7d'

/-! ## The braces -/

/-- A closing brace is a lexeme, whatever follows it. -/
theorem isLongest_rightBrace (v : List Char) :
    Kind.IsLongest (.symbol .rightBrace) ['\x7d'] ('\x7d' :: v) := by
  refine isLongest_alone rfl (fun h => ?_) (by rintro ⟨⟩ <;> decide) v
  exact h.shape

/-- **Closing braces are scanned one after the other.** -/
theorem tokensFrom_closingBraces (source : Source) (p : Position) (n : Nat) :
    ∃ cs, tokensFrom source p (closingBraces n) = cs ∧ cs.length = n ∧
      (∀ t ∈ cs, t.kind = .symbol .rightBrace) ∧
        ∀ i (h : i < cs.length), cs[i].span.stop.offset = (p.offset + i + 1 : Nat) := by
  induction n generalizing p with
  | zero =>
    exact ⟨[], (scanFrom_skipped source p rfl).1, rfl, List.forall_mem_nil _, fun i h => by cases h⟩
  | succ n ih =>
    have hpiece : StartsPiece ('\x7d' :: closingBraces n) := by
      refine ⟨'\x7d', _, rfl, rfl, ?_⟩
      rintro ⟨r, hr⟩
      cases hr
    obtain ⟨htokens, -⟩ := scanFrom_longest (w := ['\x7d']) source p (trivia_piece hpiece)
      (isLongest_rightBrace (closingBraces n))
    obtain ⟨cs, hcs, hlength, hkinds, hplaces⟩ := ih (p.next '\x7d')
    refine ⟨_, htokens.trans (congrArg _ hcs), congrArg (· + 1) hlength,
      List.forall_mem_cons.2 ⟨rfl, hkinds⟩, fun i hi => ?_⟩
    cases i with
    | zero =>
      rw [List.getElem_cons_zero]
      exact congrArg Nat.cast (p.offset_next '\x7d')
    | succ i =>
      rw [List.getElem_cons_succ, hplaces i (Nat.lt_of_succ_lt_succ hi), Position.offset_next]
      congr 1
      omega

/-! ## Lexemes and blanks -/

/-- No token of a text runs over a blank. -/
theorem avoids_blank {source : Source} {text : String} {u v : List Char} {c : Char}
    (htext : text.toList = u ++ c :: v) (hc : isBlank c = true)
    (hfaults : Scan.faults (scan source text) = []) :
    ∀ t ∈ Scan.beforeEnd (scan source text), t.span.Avoids u.length := by
  intro t ht
  have herror := (Scan.faults_scan_eq_nil_iff source text).1 hfaults t ht
  have hspells := Scan.spells_of_mem_beforeEnd source text ht herror
  obtain ⟨ts, e, htokens, hparts⟩ := scan_partitions source text
  have hsliced : t.lexeme.toList = slice text.toList t.span.start.offset t.span.stop.offset := by
    have hmem := (List.takeWhile_prefix _).subset ht
    rw [htokens] at hmem
    rcases List.mem_append.1 hmem with hmem | hmem
    · exact hparts.sliced t hmem
    · have hend := List.mem_takeWhile_imp ht
      rw [List.mem_singleton.1 hmem, hparts.isEnd.1] at hend
      cases hend
  by_contra hover
  obtain ⟨hstop, hstart⟩ := not_or.1 hover
  -- the blank would be in its lexeme
  have hmem : c ∈ t.lexeme.toList := by
    rw [hsliced, slice, htext]
    refine List.mem_of_getElem? (i := u.length - t.span.start.offset.toNat) ?_
    rw [List.getElem?_drop, List.getElem?_take, if_pos (by omega), Nat.add_sub_cancel' (by omega),
      List.getElem?_append_right le_rfl, Nat.sub_self]
    rfl
  rw [hspells.isBlank_eq_false c hmem] at hc
  cases hc

/-! ## The text alone -/

/-- The scan of a text ends with the end token behind all of it. -/
theorem scanFrom_last (source : Source) (p : Position) (text : List Char) :
    ∃ xs, scanFrom source p text = xs ++ [.token (.endAt ((p.after text).inFile source.file))] := by
  fun_induction scanFrom source p text with
  | case1 p text start h =>
    have happend := trivia_append false text
    rw [h, List.append_nil] at happend
    have hstart : start = p.after text := congrArg p.after happend
    exact ⟨[], by rw [hstart]; rfl⟩
  | case2 p text start c r h piece ih =>
    obtain ⟨xs, hxs⟩ := ih
    have hpiece : piece.text ++ piece.rest = c :: r := Piece.text_append_rest c r
    have hstop : (start.after piece.text).after piece.rest = p.after text := by
      rw [← Position.after_append, hpiece, ← h, ← Position.after_append, trivia_append]
    rw [hstop] at hxs
    exact ⟨_ :: xs, by rw [hxs]; rfl⟩

section Texts

variable {text behind file : String} {n : Int} {o : Options}

/-- **A text without faults that is cut at a line feed:** the tokens before it are those of the text
up to there. -/
theorem scan_cut (hfaults : Scan.faults (scansOf (text ++ "\n" ++ behind) file) = []) :
    Scan.faults (scansOf text file) = [] ∧
      Scan.beforeEnd (scansOf (text ++ "\n" ++ behind) file) =
        Scan.beforeEnd (scansOf text file) ++ tokensFrom (.ofText file (text ++ "\n" ++ behind))
          ((Position.start.after text.toList).next '\n') behind.toList := by
  let source := Source.ofText file (text ++ "\n" ++ behind)
  have htoList : (text ++ "\n" ++ behind).toList = text.toList ++ '\n' :: behind.toList := by
    simp [String.toList_append]
  have hclear := avoids_blank htoList rfl hfaults
  have hoffset : (Position.start.after text.toList).offset = text.toList.length := by
    rw [Position.offset_after]
    exact Nat.zero_add _
  unfold scansOf scan at hfaults hclear ⊢
  rw [htoList] at hfaults hclear ⊢
  -- a comment before the line feed ends there
  have hcomment : Uncommented text.toList ('\n' :: behind.toList) := fun b _ _ _ _ =>
    ⟨by rintro ⟨⟩, rfl⟩
  obtain ⟨hfaults', hjoins⟩ := scanFrom_split hfaults (fun t ht => by
    rw [hoffset]
    exact hclear t ht) hcomment
  have hfile : (Source.ofText file text).file = source.file := rfl
  have hsame : scanFrom (.ofText file text) .start text.toList =
      scanFrom source .start text.toList := scanFrom_of_faultless hfile hfaults'
  rw [hsame]
  refine ⟨hfaults', hjoins.tokens.trans ?_⟩
  unfold tokensFrom
  rw [scanFrom_feed]

/-- A text without faults is all that is before its end token. -/
theorem faces_startOf (hn : 1 ≤ n) (hfaults : Scan.faults (scansOf text file) = []) :
    (startOf text file n).Faces (Scan.beforeEnd (scansOf text file))
      (.endAt ((Position.start.after text.toList).inFile file)) where
  calm := calm_startOf hn hfaults
  input := rfl
  stream := by
    obtain ⟨xs, e, hscan, hend, hxs⟩ := scanFrom_eq (.ofText file text) .start text.toList
    obtain ⟨ys, hscan'⟩ := scanFrom_last (.ofText file text) .start text.toList
    obtain ⟨rfl, he⟩ := List.append_inj' (hscan.symm.trans hscan') rfl
    obtain rfl := Scan.token.inj (List.singleton_injective he)
    show Scan.tokens (scanFrom _ _ _) = Scan.beforeEnd (scanFrom _ _ _) ++ _
    rw [hscan, Scan.beforeEnd_append rfl hxs]
    exact List.map_append
  isEnd := rfl

/-- The braces of a text without faults are spelled as such. -/
theorem unclosed_eq (hfaults : Scan.faults (scansOf text file) = []) (stop : Location)
    {b : Grammar.Body} (hb : b.opener.1 ∈ Scan.beforeEnd (scansOf text file)) :
    Parser.unclosed (settingOf text file o) (.endAt stop) b.opener.1 =
      Block.unclosed (.ofText file text) stop b.tree := by
  have herror := (Scan.faults_scan_eq_nil_iff _ _).1 hfaults _ hb
  have hspells := Scan.spells_of_mem_beforeEnd _ _ hb herror
  obtain ⟨opener, ss, closer⟩ := b
  have hlexeme : opener.1.lexeme = Symbol.leftBrace.spelling := by
    rw [show Grammar.Body.opener (.mk opener ss closer) = opener from rfl, opener.2] at hspells
    exact String.toList_injective hspells
  have hdescribe : opener.1.describe = "'\x7b'" := by
    rw [Token.describe, Token.isEnd, opener.2, hlexeme]
    rfl
  unfold Parser.unclosed
  rw [show Grammar.Body.opener (.mk opener ss closer) = opener from rfl, hdescribe]
  rfl

/-- What is listed of diagnostics at one place is what was recorded. -/
theorem mergeSort_of_place {ds : List Diagnostic} {l : Location}
    (h : ∀ d ∈ ds, d.place = some l) : ds.mergeSort Collector.precedes = ds := by
  refine List.mergeSort_of_pairwise (List.pairwise_of_forall_mem_list fun d hd d' hd' => ?_)
  rw [Collector.precedes, h d hd, h d' hd']
  exact decide_eq_true le_rfl

/-- Where a text is accepted with closing braces behind it that end blocks, the text alone comes to
an end inside the bodies of these blocks. -/
theorem exists_unclosed_of_accepted {r : Parsed} {blocks : List Block}
    (hr : parse (text ++ "\n" ++ String.ofList (closingBraces blocks.length)) file o = .ok r)
    (hclean : r.diagnostics = []) (hne : blocks ≠ [])
    (hclosed : r.program.ClosedBehind (text.length + 1) blocks) :
    Scan.faults (scansOf text file) = [] ∧ ∃ d front i us bodies,
      Grammar.Program.Derives d (text ++ "\n" ++ String.ofList (closingBraces blocks.length)) file
        o.maxDepth.toNat ∧
      d.trees = r.program.items ∧ d.items = front ++ [i] ∧ i.Unclosed us bodies ∧
      Scan.beforeEnd (scansOf text file) = front.flatMap Grammar.Item.tokens ++ us ∧
      bodies.map Grammar.Body.tree = blocks := by
  obtain ⟨hwhole, d, hd, htrees⟩ := parse_eq_ok_iff.1 ⟨r, hr, hclean, rfl⟩
  obtain ⟨hfaults, hcut⟩ := scan_cut hwhole
  rw [String.toList_ofList] at hcut
  obtain ⟨cs, hcs, hlength, hbraces, hplaces⟩ := tokensFrom_closingBraces
    (.ofText file (text ++ "\n" ++ String.ofList (closingBraces blocks.length)))
    ((Position.start.after text.toList).next '\n') blocks.length
  rw [← hd.tokens, hcs] at hcut
  have hoffset : (Position.start.after text.toList).offset = text.length := by
    rw [Position.offset_after, String.length_toList]
    exact Nat.zero_add _
  rw [Position.offset_next, hoffset] at hplaces
  have hbefore : ∀ t ∈ Scan.beforeEnd (scansOf text file),
      t.span.stop.offset ≤ ((text.length + 1 : Nat) : Int) := by
    intro t ht
    have hstop := ((tokensFrom_ordered _ .start text.toList).1 t ht).2.2
    rw [hoffset] at hstop
    omega
  obtain ⟨front, i, us, bodies, hsplit, hi, htokens, hbodies⟩ := Grammar.Program.exists_unclosed
    htrees.symm hcut hbraces hbefore hplaces hlength.symm hne hclosed
  exact ⟨hfaults, d, front, i, us, bodies, hd, htrees, hsplit, hi, htokens, hbodies⟩

/-- **Every block that is not closed is reported once,** the innermost first. Take a text that is
accepted with closing braces on a line behind it, all of which end blocks: these are in one another.
Without the braces, there is one diagnostic at the end for each of the blocks, naming the place of
its brace, as far as there is room. The items are those before the last. -/
theorem parse_tells_unclosed {r : Parsed} {blocks : List Block}
    (hr : parse (text ++ "\n" ++ String.ofList (closingBraces blocks.length)) file o = .ok r)
    (hclean : r.diagnostics = []) (hne : blocks ≠ [])
    (hclosed : r.program.ClosedBehind (text.length + 1) blocks) :
    blocks.Pairwise (fun b b' => Node.block b ∈ (Node.block b').nodes) ∧
    ∃ r', parse text file o = .ok r' ∧ r'.diagnostics = recorded text file o ∧
      recorded text file o = (blocks.map (Block.unclosed (.ofText file text)
        ((Position.start.after text.toList).inFile file))).take o.maxErrors.toNat ∧
      r'.diagnostics.length = min blocks.length o.maxErrors.toNat ∧
      r'.program.items = r.program.items.dropLast := by
  obtain ⟨hfaults, d, front, i, us, bodies, hd, htrees, hsplit, hi, htokens, rfl⟩ :=
    exists_unclosed_of_accepted hr hclean hne hclosed
  let stop := (Position.start.after text.toList).inFile file
  have hs : (startOf text file o.maxErrors).Faces _ (.endAt stop) :=
    faces_startOf o.one_le_maxErrors hfaults
  rw [htokens] at hs
  have hneed : needMost Item.need d.trees ≤ (settingOf text file o).room := hd.need
  obtain ⟨p, s, hgives, hitems, herrors⟩ :=
    Parser.program_unwinds hsplit hi hs hd.placed hd.lengths hneed
  have hunclosed :
      bodies.map (fun b => Parser.unclosed (settingOf text file o) (.endAt stop) b.opener.1) =
        (bodies.map Grammar.Body.tree).map (Block.unclosed (.ofText file text) stop) := by
    rw [List.map_map]
    refine List.map_congr_left fun b hb => unclosed_eq hfaults stop ?_
    rw [htokens]
    exact List.mem_append_right _ (hi.opener_mem b hb)
  have hrecorded : recorded text file o = ((bodies.map Grammar.Body.tree).map
      (Block.unclosed (.ofText file text) stop)).take o.maxErrors.toNat := by
    rw [recorded_eq, hgives, ← hunclosed]
    exact (congrArg Collector.errors herrors).trans (Collector.errors_ofList o.maxErrors _)
  obtain ⟨r', hr', rfl, -⟩ := parse_of_parseScans (parseScans_eq_ok_iff.2 hgives)
  have hsorts := parse_sorts_recorded hr'
  rw [mergeSort_of_place (l := stop) fun d hd => ?_] at hsorts
  refine ⟨List.pairwise_map.2 hi.nested, r', hr', hsorts, hrecorded, ?_, ?_⟩
  · rw [hsorts, hrecorded, List.length_take, List.length_map, min_comm]
  · rw [hitems, ← htrees, Grammar.Program.trees, hsplit, List.map_append, List.map_singleton,
      List.dropLast_concat]
  · -- all are at the end
    rw [hrecorded] at hd
    obtain ⟨b, -, rfl⟩ := List.mem_map.1 (List.mem_of_mem_take hd)
    rfl

/-- The braces of a branch and of the function around it are missing. -/
theorem parse_tells_unclosed_two : ∃ r', parse "fun f() \x7b if a \x7b" "m.arc" {} = .ok r' ∧
    r'.diagnostics.map Diagnostic.hint =
      [some "to match '\x7b' at 1:16", some "to match '\x7b' at 1:9"] ∧
    r'.program.items = [] := by
  have hrun : (parse ("fun f() \x7b if a \x7b" ++ "\n" ++ String.ofList (closingBraces 2)) "m.arc"
      {}).toOption.map (fun r => (r.isClean, r.program.blocks.reverse.map Block.span,
        r.program.items.length)) =
      some (true, [⟨⟨"m.arc", 1, 16, 15⟩, ⟨"m.arc", 2, 2, 18⟩⟩,
        ⟨⟨"m.arc", 1, 9, 8⟩, ⟨"m.arc", 2, 3, 19⟩⟩], 1) := by
    decide +kernel
  obtain ⟨r, hp, hseen⟩ := exists_of_map_toOption hrun
  obtain ⟨hclean, hseen⟩ := Prod.mk.inj hseen
  obtain ⟨hspans, hitems⟩ := Prod.mk.inj hseen
  have hlength : r.program.blocks.reverse.length = 2 := by
    rw [← List.length_map Block.span, hspans]
    rfl
  have hstops : ∀ i (h : i < (r.program.blocks.reverse.map Block.span).length),
      (r.program.blocks.reverse.map Block.span)[i].stop.offset = (17 + i + 1 : Nat) := by
    rw [hspans]
    decide
  rw [← hlength] at hp
  obtain ⟨-, r', hr', hsorts, hrecorded, -, hitems'⟩ := parse_tells_unclosed hp
    (List.isEmpty_iff.1 hclean) (List.ne_nil_of_length_pos (by omega)) fun i hi => by
      have hstop := hstops i (by rwa [List.length_map])
      rw [List.getElem_map] at hstop
      exact ⟨List.mem_reverse.1 (List.getElem_mem hi), hstop⟩
  refine ⟨r', hr', ?_, ?_⟩
  · have hhints : r'.diagnostics.map Diagnostic.hint =
        (r.program.blocks.reverse.map Block.span).map fun s =>
          some s!"to match '\x7b' at {s.start.line}:{s.start.column}" := by
      rw [hsorts, hrecorded, List.take_of_length_le, List.map_map, List.map_map]
      · rfl
      · rw [List.length_map, hlength]
        decide
    rw [hhints, hspans]
    decide
  · rw [hitems', List.dropLast_eq_take, hitems]
    rfl

end Texts

end ArcLang
