import ArcLang.Proofs.LongestMatch

/-!
# Texts put together

The tokens of two texts that stand next to each other are those of the one and then those of the
other, if no lexeme and no comment runs over the seam.

* `scanFrom_join`: a text without faults, and another one behind a seam that no lexeme runs over.
* `scanFrom_split`: a text without faults that is cut where no token stands.
* `scanFrom_alike`: where a text stands makes no difference to its tokens but for their spans.
-/

namespace ArcLang

/-! ## Comments at a seam -/

/-- No comment that starts in the text `u` goes on in `v`, or else it makes no difference there. -/
def Uncommented (u v : List Char) : Prop :=
  ∀ b, b ≠ [] → b <:+ u → '\n' ∉ b → ['/', '/'] <+: b ++ v →
    v.head? ≠ some '/' ∧ trivia true v = trivia false v

theorem Uncommented.suffix {u w v : List Char} (h : Uncommented u v) (hw : w <:+ u) :
    Uncommented w v := fun b hne hb => h b hne (hb.trans hw)

theorem trivia_inComment (c : Char) (r : List Char) :
    trivia true (c :: r) = (c :: (trivia (c != '\n') r).1, (trivia (c != '\n') r).2) := rfl

theorem trivia_blank {c : Char} (h : isBlank c = true) (r : List Char) :
    trivia false (c :: r) = (c :: (trivia false r).1, (trivia false r).2) := by
  rw [trivia, if_neg (by decide), if_pos h]

theorem trivia_slashes (r : List Char) (h : r.head? = some '/') :
    trivia false ('/' :: r) = ('/' :: (trivia true r).1, (trivia true r).2) := by
  rw [trivia, if_neg (by decide), if_neg (by decide), h, if_pos (by decide)]

theorem trivia_piece {c : Char} {r : List Char} (h : StartsPiece (c :: r)) :
    trivia false (c :: r) = ([], c :: r) := by
  obtain ⟨d, s, heq, hblank, hslashes⟩ := h
  cases heq
  have hcomment : ¬ (decide (c = '/') && decide (r.head? = some '/')) = true := by
    rw [Bool.and_eq_true, decide_eq_true_eq, decide_eq_true_eq]
    rintro ⟨rfl, hr⟩
    obtain ⟨s, rfl⟩ := List.head?_eq_some_iff.1 hr
    exact hslashes ⟨s, rfl⟩
  rw [trivia, if_neg (by decide), hblank, if_neg (by decide), if_neg hcomment]

/-- **What is skipped at the front of two texts:** all of the first one and then the front of the
second; or the front of the first one, if a piece starts in it. -/
theorem trivia_append_cases {u v : List Char} (h : Uncommented u v) (inComment : Bool)
    (hopen : inComment = true → '\n' ∉ u → trivia true v = trivia false v) :
    (trivia inComment u = (u, []) ∧
      trivia inComment (u ++ v) = (u ++ (trivia false v).1, (trivia false v).2)) ∨
    ∃ skipped c r, u = skipped ++ c :: r ∧ trivia inComment u = (skipped, c :: r) ∧
      trivia inComment (u ++ v) = (skipped, c :: r ++ v) := by
  induction u generalizing inComment with
  | nil =>
    refine .inl ⟨rfl, ?_⟩
    cases inComment with
    | false => rfl
    | true => exact hopen rfl List.not_mem_nil
  | cons c u ih =>
    have ih := ih (h.suffix (List.suffix_cons c u))
    -- one more character is skipped in front of what the rest of the text gives
    have skip (inComment' : Bool)
        (hstep : ∀ r, (r = u ∨ r = u ++ v) → trivia inComment (c :: r) =
          (c :: (trivia inComment' r).1, (trivia inComment' r).2))
        (hopen' : inComment' = true → '\n' ∉ u → trivia true v = trivia false v) :
        (trivia inComment (c :: u) = (c :: u, []) ∧
          trivia inComment (c :: u ++ v) = (c :: u ++ (trivia false v).1, (trivia false v).2)) ∨
        ∃ skipped d r, c :: u = skipped ++ d :: r ∧ trivia inComment (c :: u) = (skipped, d :: r) ∧
          trivia inComment (c :: u ++ v) = (skipped, d :: r ++ v) := by
      rw [List.cons_append, hstep u (.inl rfl), hstep (u ++ v) (.inr rfl)]
      rcases ih inComment' hopen' with ⟨halone, htogether⟩ | ⟨skipped, d, r, hu, halone, htogether⟩
      · rw [halone, htogether]
        exact .inl ⟨rfl, rfl⟩
      · rw [halone, htogether]
        exact .inr ⟨c :: skipped, d, r, by rw [hu]; rfl, rfl, rfl⟩
    cases inComment with
    | true =>
      refine skip (c != '\n') (fun r _ => trivia_inComment c r) fun hc hu => hopen rfl ?_
      rw [List.mem_cons, not_or]
      exact ⟨Ne.symm (bne_iff_ne.1 hc), hu⟩
    | false =>
      by_cases hblank : isBlank c = true
      · exact skip false (fun r _ => trivia_blank hblank r) nofun
      by_cases hslashes : ['/', '/'] <+: c :: u ++ v
      · obtain ⟨s, hs⟩ := hslashes
        obtain ⟨rfl, htail⟩ := List.cons.inj hs
        have hhead : (u ++ v).head? = some '/' := (congrArg List.head? htail).symm
        have hcomment (hu : '\n' ∉ u) := h ('/' :: u) (List.cons_ne_nil _ _) List.suffix_rfl
          (by rw [List.mem_cons, not_or]; exact ⟨by decide, hu⟩) ⟨s, hs⟩
        cases u with
        | nil => exact absurd hhead (hcomment List.not_mem_nil).1
        | cons d u =>
          refine skip true ?_ fun _ hu => (hcomment hu).2
          rintro r (rfl | rfl)
          · exact trivia_slashes _ hhead
          · exact trivia_slashes _ hhead
      · have hpiece : StartsPiece (c :: (u ++ v)) :=
          ⟨c, u ++ v, rfl, Bool.eq_false_iff.2 hblank, hslashes⟩
        have hpiece' : StartsPiece (c :: u) := by
          refine ⟨c, u, rfl, Bool.eq_false_iff.2 hblank, fun hs => hslashes ?_⟩
          exact hs.trans (List.prefix_append _ _)
        exact .inr ⟨[], c, u, rfl, trivia_piece hpiece', trivia_piece hpiece⟩

/-! ## Lexemes at a seam -/

/-- No lexeme holds this character behind its first. -/
def isBreak (c : Char) : Bool := isBlank c || c = ';'

theorem isBreak_iff {c : Char} : isBreak c = true ↔ c ∈ [' ', '\t', '\r', '\n', ';'] := by
  simp [isBreak, isBlank, or_assoc]

namespace Kind

variable {k : Kind} {w u v : List Char}

theorem Spells.isBreak_tail {c : Char} {t : List Char} (h : k.Spells (c :: t)) :
    ∀ d ∈ t, isBreak d = false := by
  have hclass {p : Char → Bool} (hp : ∀ x ∈ [' ', '\t', '\r', '\n', ';'], p x = false) {d : Char}
      (hd : p d = true) : isBreak d = false := by
    rw [← Bool.not_eq_true, isBreak_iff]
    intro hmem
    rw [hp d hmem] at hd
    cases hd
  have hliteral {quote : Char} {least : Nat} (hquote : isBreak quote = false)
      (hquoted : QuotedLetters quote least (c :: t)) : ∀ d ∈ t, isBreak d = false := by
    obtain ⟨letters, heq, hletters, -⟩ := hquoted
    cases heq
    intro d hd
    rcases List.mem_append.1 hd with hd | hd
    · exact hclass (by decide) (hletters d hd)
    · rw [List.mem_singleton.1 hd]
      exact hquote
  have hsymbol (s : Symbol) : ∀ d ∈ s.spelling.toList.tail, isBreak d = false := by
    cases s <;> decide
  have hshape := h.shape
  split at hshape
  · exact fun d hd => hclass (by decide) (hshape.2 d hd)
  split at hshape
  · exact fun d hd => hclass (by decide) (hshape.2 d hd)
  split at hshape
  · next hc => exact hliteral (by rw [hc]; decide) hshape.2
  split at hshape
  · next hc => exact hliteral (by rw [hc]; decide) hshape.2
  obtain ⟨s, -, hs⟩ := hshape
  have htail := hsymbol s
  rwa [hs] at htail

theorem Spells.ne_nil (h : k.Spells w) : w ≠ [] := by
  obtain ⟨c, t, rfl, -⟩ := h.head
  exact List.cons_ne_nil c t

/-- No lexeme holds a blank. -/
theorem Spells.isBlank_eq_false (h : k.Spells w) : ∀ d ∈ w, isBlank d = false := by
  obtain ⟨c, t, rfl, hc, -⟩ := h.head
  refine List.forall_mem_cons.2 ⟨hc, fun d hd => ?_⟩
  have hbreak := h.isBreak_tail d hd
  unfold isBreak at hbreak
  exact (Bool.or_eq_false_iff.1 hbreak).1

end Kind

/-- A blank stands last in the first text, or something that no lexeme goes on with stands first in
the other. -/
def Seam (u v : List Char) : Prop :=
  (∀ c ∈ u.getLast?, isBlank c = true) ∨ ∀ c ∈ v.head?, isBreak c = true

theorem Seam.suffix {u v w : List Char} (h : Seam u v) (hw : w <:+ u) : Seam w v := by
  obtain ⟨a, rfl⟩ := hw
  refine h.imp_left fun hlast c hc => hlast c ?_
  rw [List.getLast?_append, hc]
  rfl

namespace Kind.IsLongest

variable {k : Kind} {w u v : List Char}

/-- **No lexeme runs over a seam.** -/
theorem append (h : k.IsLongest w u) (hseam : Seam u v) : k.IsLongest w (u ++ v) := by
  refine ⟨h.1, h.2.1.trans (List.prefix_append u v), fun k' w' hw' hstart => ?_⟩
  by_cases hle : w'.length ≤ u.length
  · exact h.2.2 k' w' hw' (List.prefix_of_prefix_length_le hstart (List.prefix_append u v) hle)
  -- a longer lexeme has all of the first text in it, and the first character of the other
  exfalso
  obtain ⟨x, rfl⟩ := List.prefix_of_prefix_length_le (List.prefix_append u v) hstart
    (Nat.le_of_not_le hle)
  obtain ⟨e, x, rfl⟩ : ∃ e y, x = e :: y := by
    cases x with
    | nil => exact absurd (by rw [List.append_nil]) hle
    | cons e y => exact ⟨e, y, rfl⟩
  have hhead : v.head? = some e := by
    obtain ⟨z, hz⟩ := (List.prefix_append_right_inj u).1 hstart
    rw [← hz]
    rfl
  obtain ⟨c, t, rfl, -⟩ := h.1.head
  obtain ⟨z, rfl⟩ := h.2.1
  rcases hseam with hlast | hfirst
  · obtain ⟨d, hd⟩ := Option.isSome_iff_exists.1
      (List.getLast?_isSome.2 (List.cons_ne_nil c (t ++ z)))
    have hmem : d ∈ c :: t ++ z := List.mem_of_getLast? hd
    have hblank := hlast d hd
    rw [hw'.isBlank_eq_false d (List.mem_append_left _ hmem)] at hblank
    cases hblank
  · have hbreak := hfirst e hhead
    have hw' : k'.Spells (c :: (t ++ z ++ e :: x)) := hw'
    rw [hw'.isBreak_tail e (List.mem_append_right _ List.mem_cons_self)] at hbreak
    cases hbreak

/-- A lexeme that ends before a text is cut off stays. -/
theorem of_append (h : k.IsLongest w (u ++ v)) (hw : w <+: u) : k.IsLongest w u :=
  ⟨h.1, hw, fun k' w' hw' hstart => h.2.2 k' w' hw' (hstart.trans (List.prefix_append u v))⟩

end Kind.IsLongest

/-! ## Scans at a seam -/

/-- The tokens differ in their spans at most. -/
structure Token.Alike (t u : Token) : Prop where
  kind : u.kind = t.kind
  lexeme : u.lexeme = t.lexeme

/-- The tokens of a text that starts at `p`, up to the end token. -/
def tokensFrom (source : Source) (p : Position) (text : List Char) : List Token :=
  Scan.beforeEnd (scanFrom source p text)

section Scans

variable {source : Source} {p : Position} {text u v : List Char}

theorem scanFrom_skipped (source : Source) (p : Position) {skipped : List Char}
    (h : trivia false text = (skipped, [])) :
    tokensFrom source p text = [] ∧ Scan.faults (scanFrom source p text) = [] := by
  unfold tokensFrom
  rw [scanFrom_of_trivia_nil h]
  exact ⟨rfl, rfl⟩

/-- Where a piece starts, a scan without faults takes the longest lexeme. -/
theorem isLongest_of_faultless {skipped : List Char} {c : Char} {r : List Char}
    (h : trivia false text = (skipped, c :: r))
    (hfaults : Scan.faults (scanFrom source p text) = []) :
    ∃ (k : Kind) (w rest : List Char), c :: r = w ++ rest ∧ k.IsLongest w (w ++ rest) := by
  rw [scanFrom_of_trivia h] at hfaults
  cases hok : (Piece.front c r).outcome with
  | error why =>
    unfold Scan.ofPiece at hfaults
    rw [hok] at hfaults
    cases hfaults
  | ok k =>
    have hlongest := Piece.isLongest_front hok
    rw [← Piece.text_append_rest c r] at hlongest
    exact ⟨k, _, _, (Piece.text_append_rest c r).symm, hlongest⟩

/-- The longest lexeme is scanned as one token, and the rest from where it ends. -/
theorem scanFrom_cons_longest (source : Source) (p : Position) {skipped w rest : List Char}
    {k : Kind} (h : trivia false text = (skipped, w ++ rest))
    (hlongest : k.IsLongest w (w ++ rest)) :
    let start := p.after skipped
    scanFrom source p text = .token
      ⟨k, String.ofList w, ⟨start.inFile source.file, (start.after w).inFile source.file⟩⟩ ::
        scanFrom source (start.after w) rest := by
  intro start
  obtain ⟨c, r, rfl, -⟩ := hlongest.1.head
  rw [List.cons_append] at h hlongest
  obtain ⟨hok, htext⟩ := hlongest.front
  have hrest : (Piece.front c (r ++ rest)).rest = rest := by
    have happend := Piece.text_append_rest c (r ++ rest)
    rw [htext] at happend
    exact List.append_cancel_left happend
  have hscan : scanFrom source p text = _ := scanFrom_of_trivia h
  unfold Scan.ofPiece at hscan
  rwa [hok, htext, hrest] at hscan

/-- The same, in tokens and faults. -/
theorem scanFrom_longest (source : Source) (p : Position) {skipped w rest : List Char} {k : Kind}
    (h : trivia false text = (skipped, w ++ rest)) (hlongest : k.IsLongest w (w ++ rest)) :
    let start := p.after skipped
    tokensFrom source p text =
        ⟨k, String.ofList w, ⟨start.inFile source.file, (start.after w).inFile source.file⟩⟩ ::
          tokensFrom source (start.after w) rest ∧
      Scan.faults (scanFrom source p text) =
        Scan.faults (scanFrom source (start.after w) rest) := by
  intro start
  have hend : k ≠ .endOfInput := by
    rintro rfl
    exact hlongest.1
  unfold tokensFrom Scan.beforeEnd Scan.tokens
  rw [scanFrom_cons_longest source p h hlongest, List.map_cons,
    List.takeWhile_cons_of_pos (by simp [Scan.shown, Token.isEnd, hend])]
  exact ⟨rfl, rfl⟩

/-- The scan of the text `u` is the front of the scan of both texts. -/
structure Joins (source : Source) (p : Position) (u v : List Char) : Prop where
  tokens : tokensFrom source p (u ++ v) =
    tokensFrom source p u ++ tokensFrom source (p.after u) v
  faults : Scan.faults (scanFrom source p (u ++ v)) =
    Scan.faults (scanFrom source (p.after u) v)
  scans : ∃ xs e, e.isEnd = true ∧ scanFrom source p u = xs ++ [.token e] ∧
    scanFrom source p (u ++ v) = xs ++ scanFrom source (p.after u) v

/-- Skipped text only moves the scan on. -/
theorem scanFrom_of_skipped
    (h : trivia false (u ++ v) = (u ++ (trivia false v).1, (trivia false v).2)) :
    scanFrom source p (u ++ v) = scanFrom source (p.after u) v := by
  cases hv : trivia false v with
  | mk skipped rest =>
    rw [hv] at h
    cases rest with
    | nil => rw [scanFrom_of_trivia_nil h, scanFrom_of_trivia_nil hv, Position.after_append]
    | cons c r => rw [scanFrom_of_trivia h, scanFrom_of_trivia hv, Position.after_append]

/-- Text that is skipped alone too has no tokens of its own. -/
theorem joins_of_skipped (halone : trivia false u = (u, []))
    (h : trivia false (u ++ v) = (u ++ (trivia false v).1, (trivia false v).2)) :
    Joins source p u v := by
  have hscan : scanFrom source p (u ++ v) = scanFrom source (p.after u) v := scanFrom_of_skipped h
  refine ⟨?_, by rw [hscan], [], _, rfl, scanFrom_of_trivia_nil halone, hscan⟩
  rw [(scanFrom_skipped source p halone).1, List.nil_append]
  unfold tokensFrom
  rw [hscan]

/-- A lexeme in front moves the scan on, if it is the longest whether the other text follows or
not. -/
theorem Joins.cons {skipped w rest : List Char} {k : Kind}
    (halone : trivia false u = (skipped, w ++ rest)) (hu : u = skipped ++ (w ++ rest))
    (htogether : trivia false (u ++ v) = (skipped, w ++ rest ++ v))
    (hlongest : k.IsLongest w (w ++ rest)) (hlongest' : k.IsLongest w (w ++ rest ++ v))
    (h : Joins source ((p.after skipped).after w) rest v) : Joins source p u v := by
  rw [List.append_assoc] at htogether hlongest'
  obtain ⟨htokens, hfaults⟩ := scanFrom_longest source p halone hlongest
  obtain ⟨htokens', hfaults'⟩ := scanFrom_longest source p htogether hlongest'
  have hafter : p.after u = ((p.after skipped).after w).after rest := by
    rw [hu, Position.after_append, Position.after_append]
  refine ⟨?_, by rw [hfaults', h.faults, hafter], ?_⟩
  · rw [htokens', htokens, h.tokens, hafter]
    rfl
  · obtain ⟨xs, e, hend, hscan, hscan'⟩ := h.scans
    have hfirst := scanFrom_cons_longest source p halone hlongest
    have hfirst' := scanFrom_cons_longest source p htogether hlongest'
    dsimp only at hfirst hfirst'
    rw [hscan] at hfirst
    rw [hscan', ← hafter] at hfirst'
    exact ⟨_ :: xs, e, hend, hfirst, hfirst'⟩

/-- **A text without faults, and another one behind a seam that no lexeme runs over.** -/
theorem scanFrom_join (hfaults : Scan.faults (scanFrom source p u) = []) (hseam : Seam u v)
    (hcomment : Uncommented u v) : Joins source p u v := by
  induction hn : u.length using Nat.strongRecOn generalizing p u with
  | ind n ih =>
    rcases trivia_append_cases hcomment false nofun with
      ⟨halone, htogether⟩ | ⟨skipped, c, r, hu, halone, htogether⟩
    · exact joins_of_skipped halone htogether
    obtain ⟨k, w, rest, hpiece, hlongest⟩ := isLongest_of_faultless halone hfaults
    rw [hpiece] at hu halone htogether
    have hsuffix : w ++ rest <:+ u := ⟨skipped, hu.symm⟩
    have hsuffix' : rest <:+ u := (List.suffix_append w rest).trans hsuffix
    rw [(scanFrom_longest source p halone hlongest).2] at hfaults
    refine .cons halone hu htogether hlongest (hlongest.append (hseam.suffix hsuffix)) ?_
    refine ih rest.length ?_ hfaults (hseam.suffix hsuffix') (hcomment.suffix hsuffix') rfl
    have hlength := congrArg List.length hu
    have hpos := List.length_pos_iff.2 hlongest.1.ne_nil
    rw [List.length_append, List.length_append] at hlength
    omega

/-- **A text without faults that is cut where no token stands.** -/
theorem scanFrom_split (hfaults : Scan.faults (scanFrom source p (u ++ v)) = [])
    (hclear : ∀ t ∈ tokensFrom source p (u ++ v),
      t.span.stop.offset ≤ (p.after u).offset ∨ (p.after u).offset ≤ t.span.start.offset)
    (hcomment : Uncommented u v) :
    Scan.faults (scanFrom source p u) = [] ∧ Joins source p u v := by
  induction hn : u.length using Nat.strongRecOn generalizing p u with
  | ind n ih =>
    rcases trivia_append_cases hcomment false nofun with
      ⟨halone, htogether⟩ | ⟨skipped, c, r, hu, halone, htogether⟩
    · exact ⟨(scanFrom_skipped source p halone).2, joins_of_skipped halone htogether⟩
    rw [List.cons_append] at htogether
    obtain ⟨k, w, behind, hpiece, hlongest⟩ := isLongest_of_faultless htogether hfaults
    rw [hpiece] at htogether
    obtain ⟨htokens, hfaults'⟩ := scanFrom_longest source p htogether hlongest
    rw [htokens, List.forall_mem_cons] at hclear
    have hlength := congrArg List.length hu
    rw [List.length_append] at hlength
    -- the lexeme starts before the cut, so it ends there at the latest
    have hfits : w.length ≤ (c :: r).length := by
      have hplace := hclear.1
      have hmore : 0 < (c :: r).length := Nat.succ_pos _
      simp only [Position.inFile, Position.offset_after] at hplace
      omega
    obtain ⟨rest, hrest⟩ : w <+: c :: r :=
      List.prefix_of_prefix_length_le ⟨behind, hpiece.symm⟩ (List.prefix_append _ v) hfits
    obtain rfl : behind = rest ++ v := by
      rw [← List.cons_append, ← hrest, List.append_assoc] at hpiece
      exact (List.append_cancel_left hpiece).symm
    rw [← hrest] at hu halone
    rw [← List.append_assoc] at htogether hlongest
    have halone' := hlongest.of_append (List.prefix_append w rest)
    have hsuffix : rest <:+ u := (List.suffix_append w rest).trans ⟨skipped, hu.symm⟩
    have hshorter : rest.length < n := by
      have hpos := List.length_pos_iff.2 hlongest.1.ne_nil
      rw [← hrest, List.length_append] at hlength
      omega
    have hafter : ((p.after skipped).after w).after rest = p.after u := by
      rw [hu, Position.after_append, Position.after_append]
    obtain ⟨hrestFaults, hjoins⟩ := ih rest.length hshorter (hfaults' ▸ hfaults)
      (by rw [hafter]; exact hclear.2) (hcomment.suffix hsuffix) rfl
    refine ⟨?_, .cons halone hu htogether halone' hlongest hjoins⟩
    rw [(scanFrom_longest source p halone halone').2]
    exact hrestFaults

/-- **Where a text stands makes no difference to its tokens,** but for their spans. -/
theorem scanFrom_alike (source' : Source) (p' : Position)
    (hfaults : Scan.faults (scanFrom source p text) = []) :
    Scan.faults (scanFrom source' p' text) = [] ∧
      List.Forall₂ Token.Alike (tokensFrom source p text) (tokensFrom source' p' text) := by
  induction hn : text.length using Nat.strongRecOn generalizing p p' text with
  | ind n ih =>
    have happend := trivia_append false text
    rcases htrivia : trivia false text with ⟨skipped, rest⟩
    rw [htrivia] at happend
    cases rest with
    | nil =>
      obtain ⟨htokens, -⟩ := scanFrom_skipped source p htrivia
      obtain ⟨htokens', hfaults'⟩ := scanFrom_skipped source' p' htrivia
      rw [htokens, htokens']
      exact ⟨hfaults', .nil⟩
    | cons c r =>
      obtain ⟨k, w, rest, hpiece, hlongest⟩ := isLongest_of_faultless htrivia hfaults
      rw [hpiece] at htrivia happend
      obtain ⟨htokens, hrest⟩ := scanFrom_longest source p htrivia hlongest
      obtain ⟨htokens', hrest'⟩ := scanFrom_longest source' p' htrivia hlongest
      have hshorter : rest.length < n := by
        have hlength := congrArg List.length happend
        have hpos := List.length_pos_iff.2 hlongest.1.ne_nil
        rw [List.length_append, List.length_append] at hlength
        omega
      obtain ⟨hfaults', halike⟩ := ih rest.length hshorter ((p'.after skipped).after w)
        (hrest ▸ hfaults) rfl
      rw [htokens, htokens', hrest']
      exact ⟨hfaults', .cons ⟨rfl, rfl⟩ halike⟩

/-- The tokens of a text stand in it one after the other. -/
theorem tokensFrom_ordered (source : Source) (p : Position) (text : List Char) :
    (∀ t ∈ tokensFrom source p text, (p.offset : Int) ≤ t.span.start.offset ∧
      t.span.start.offset < t.span.stop.offset ∧ t.span.stop.offset ≤ (p.after text).offset) ∧
    (tokensFrom source p text).Pairwise fun a b => a.span.stop.offset ≤ b.span.start.offset := by
  have hcovers := scanFrom_covers source p text
  obtain ⟨proper, e, hts, hend, -, hstart, -, hproper⟩ := hcovers.exists_last
  obtain ⟨hfirst, hpairwise⟩ := hcovers.ordered
  rw [hts] at hfirst hpairwise
  have htokens : tokensFrom source p text = proper := by
    unfold tokensFrom Scan.beforeEnd
    rw [hts, List.takeWhile_append_of_pos fun t ht => by rw [(hproper t ht).1]; rfl,
      List.takeWhile_cons_of_neg (by rw [hend]; decide), List.append_nil]
  obtain ⟨hpairwise, -, hlast⟩ := List.pairwise_append.1 hpairwise
  rw [htokens]
  refine ⟨fun t ht => ?_, hpairwise.imp And.right⟩
  have hplace := hlast t ht e (List.mem_singleton_self e)
  rw [hstart, ← Position.offset_after] at hplace
  exact ⟨hfirst t (List.mem_append_left _ ht), hplace⟩

theorem tokensFrom_nodup (source : Source) (p : Position) (text : List Char) :
    (tokensFrom source p text).Nodup := by
  obtain ⟨hplaced, hpairwise⟩ := tokensFrom_ordered source p text
  refine hpairwise.imp_of_mem fun {a b} ha _ hle => ?_
  rintro rfl
  have := hplaced a ha
  omega

end Scans

end ArcLang
