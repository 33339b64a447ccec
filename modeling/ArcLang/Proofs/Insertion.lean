import ArcLang.Proofs.Seams
import ArcLang.Proofs.Weaving

/-!
# Lines put into a text

Lines are put into a text at places where no token stands and no comment goes on. The tokens of the
result are those of the text, each with the tokens of the lines that stand before it.

* `Insertion`: a line to be put into a text.
* `scanFrom_inserted`: the tokens of the result.
-/

namespace ArcLang

/-! ## Lines -/

/-- A text with a semicolon behind it that is put into another text, with white space around it. -/
structure Insertion where
  /-- Where it is put, as an offset in the other text. -/
  offset : Nat
  lead : String
  garbage : String
  trail : String

/-- Only blanks stand on the last line of the text. -/
def Fresh (text : List Char) : Prop :=
  ∃ above line, text = above ++ line ∧ (∀ c ∈ above.getLast?, c = '\n') ∧
    ∀ c ∈ line, isBlank c = true

/-- A comment that starts in the text `before` goes on behind it. -/
def InComment (before behind : List Char) : Prop :=
  (∃ c ∈ behind.head?, c ≠ '\n') ∧
    ∃ comment, comment ≠ [] ∧ comment <:+ before ∧ '\n' ∉ comment ∧
      ['/', '/'] <+: comment ++ behind

namespace Insertion

/-- The garbage with its semicolon. -/
def line (i : Insertion) : String := i.garbage ++ ";"

/-- All that is put into the text. -/
def text (i : Insertion) : List Char := i.lead.toList ++ (i.line.toList ++ i.trail.toList)

/-- A text that starts at an offset, with lines put into it. -/
def insertFrom (start : Nat) (text : List Char) : List Insertion → List Char
  | [] => text
  | i :: is => text.take (i.offset - start) ++
      (i.text ++ insertFrom i.offset (text.drop (i.offset - start)) is)

/-- A text with lines put into it. -/
def insertAll (text : String) (is : List Insertion) : String :=
  String.ofList (insertFrom 0 text.toList is)

/-- Each line with the offset at which it starts in the result, where so many characters have been
put in before. -/
def placesFrom (more : Nat) : List Insertion → List (Nat × Insertion)
  | [] => []
  | i :: is =>
    (more + i.offset + i.lead.toList.length, i) :: placesFrom (more + i.text.length) is

/-- Only white space stands before the line, up to the start of its line, and the line is put into
no comment. -/
structure Fits (i : Insertion) (before behind : List Char) : Prop where
  blank : ∀ c ∈ i.lead.toList ++ i.trail.toList, isBlank c = true
  alone : Fresh (before ++ i.lead.toList)
  comment : ¬ InComment before behind

end Insertion

/-! ## Lines of white space -/

theorem trivia_of_blank {text : List Char} (h : ∀ c ∈ text, isBlank c = true) (inComment : Bool) :
    trivia inComment text = (text, []) := by
  induction text generalizing inComment with
  | nil => rfl
  | cons c r ih =>
    obtain ⟨hc, hr⟩ := List.forall_mem_cons.1 h
    cases inComment with
    | true => rw [trivia_inComment, ih hr]
    | false => rw [trivia_blank hc, ih hr]

namespace Fresh

variable {u v w : List Char}

theorem of_blank (h : ∀ c ∈ u, isBlank c = true) : Fresh u :=
  ⟨[], u, rfl, by rintro _ ⟨⟩, h⟩

theorem behind_break (h : ∀ c ∈ v, isBlank c = true) : Fresh (u ++ '\n' :: v) := by
  refine ⟨u ++ ['\n'], v, (List.append_assoc u ['\n'] v).symm, fun c hc => ?_, h⟩
  rw [List.getLast?_concat] at hc
  exact (Option.some.inj hc).symm

theorem suffix (h : Fresh u) (hw : w <:+ u) : Fresh w := by
  obtain ⟨above, line, rfl, habove, hline⟩ := h
  by_cases hle : w.length ≤ line.length
  · exact of_blank fun c hc =>
      hline c ((List.suffix_of_suffix_length_le hw (List.suffix_append above line) hle).subset hc)
  · obtain ⟨above', rfl⟩ := List.suffix_of_suffix_length_le (List.suffix_append above line) hw
      (Nat.le_of_not_le hle)
    obtain ⟨front, hfront⟩ := hw
    rw [← List.append_assoc] at hfront
    obtain rfl := List.append_cancel_right hfront
    refine ⟨above', line, rfl, fun c hc => habove c ?_, hline⟩
    rw [List.getLast?_append, hc]
    rfl

theorem seam (h : Fresh u) : Seam u v := by
  obtain ⟨above, line, rfl, habove, hline⟩ := h
  refine .inl fun c hc => ?_
  rw [List.getLast?_append] at hc
  cases hlast : line.getLast? with
  | some d =>
    rw [hlast] at hc
    cases hc
    exact hline _ (List.mem_of_getLast? hlast)
  | none =>
    rw [hlast] at hc
    rw [habove c hc]
    rfl

/-- No comment is open behind a line of blanks. -/
theorem uncommented (h : Fresh u) : Uncommented u v := by
  intro b hne hb hline hslashes
  exfalso
  obtain ⟨above, line, rfl, habove, hblank⟩ := h.suffix hb
  have hnil : above = [] := by
    by_contra hsome
    obtain ⟨c, hc⟩ := Option.isSome_iff_exists.1 (List.getLast?_isSome.2 hsome)
    exact hline (List.mem_append_left _ (habove c hc ▸ List.mem_of_getLast? hc))
  subst hnil
  obtain ⟨c, rest, rfl⟩ := List.exists_cons_of_ne_nil (show line ≠ [] from hne)
  obtain ⟨s, hs⟩ := hslashes
  obtain ⟨rfl, -⟩ := List.cons.inj hs
  exact absurd (hblank '/' List.mem_cons_self) (by decide)

end Fresh

/-- At the end of its line a comment ends. -/
theorem uncommented_of_not_inComment {u v : List Char} (h : ¬ InComment u v) : Uncommented u v := by
  intro b hne hb hline hslashes
  cases v with
  | nil => exact ⟨nofun, rfl⟩
  | cons c v =>
    have hc : c = '\n' := by
      by_contra hc
      exact h ⟨⟨c, rfl, hc⟩, b, hne, hb, hline, hslashes⟩
    subst hc
    exact ⟨fun h => absurd (Option.some.inj h) (by decide), rfl⟩

theorem InComment.mono {u v w : List Char} (h : InComment w v) (hw : w <:+ u) : InComment u v := by
  obtain ⟨hv, b, hne, hb, hrest⟩ := h
  exact ⟨hv, b, hne, hb.trans hw, hrest⟩

theorem Insertion.Fits.suffix {i : Insertion} {u v w : List Char} (h : i.Fits u v) (hw : w <:+ u) :
    i.Fits w v where
  blank := h.blank
  alone := h.alone.suffix (by
    obtain ⟨front, rfl⟩ := hw
    exact ⟨front, (List.append_assoc _ _ _).symm⟩)
  comment hcomment := h.comment (hcomment.mono hw)

/-! ## The scan of one line -/

section Scans

variable {source : Source} {p : Position} {u v : List Char}

/-- A symbol of one character is a lexeme, whatever follows it, if no other begins with that. -/
theorem isLongest_alone {symbol : Symbol} {c : Char} (hspelling : symbol.spelling.toList = [c])
    (hshape : ∀ {k : Kind} {t : List Char}, k.Spells (c :: t) →
      ∃ s, k = .symbol s ∧ s.spelling.toList = c :: t)
    (honly : ∀ s : Symbol, s.spelling.toList.head? = some c → s = symbol) (v : List Char) :
    Kind.IsLongest (.symbol symbol) [c] (c :: v) := by
  refine ⟨hspelling.symm, ⟨v, rfl⟩, fun k w hw hstart => .inl ?_⟩
  obtain ⟨d, t, rfl, -⟩ := hw.head
  obtain ⟨r, hr⟩ := hstart
  obtain ⟨rfl, -⟩ := List.cons.inj hr
  obtain ⟨s, rfl, hs⟩ := hshape hw
  obtain rfl := honly s (by rw [hs]; rfl)
  exact ⟨rfl, hs.symm.trans hspelling⟩

/-- A semicolon is a lexeme, whatever follows it. -/
theorem isLongest_semicolon (v : List Char) :
    Kind.IsLongest (.symbol .semicolon) [';'] (';' :: v) := by
  refine isLongest_alone rfl (fun h => ?_) (by rintro ⟨⟩ <;> decide) v
  exact h.shape

theorem joins_semicolon : Joins source p [';'] v := by
  have hpiece : StartsPiece (';' :: v) := by
    refine ⟨';', v, rfl, rfl, ?_⟩
    rintro ⟨s, hs⟩
    cases hs
  have htogether : trivia false ([';'] ++ v) = ([], [';'] ++ [] ++ v) := trivia_piece hpiece
  have halone : trivia false [';'] = ([], [';'] ++ []) := rfl
  exact .cons halone rfl htogether (isLongest_semicolon []) (isLongest_semicolon v)
    (joins_of_skipped rfl rfl)

/-- White space behind a text is skipped, also in a comment. -/
theorem joins_blank (hu : Scan.faults (scanFrom source p u) = [])
    (hv : ∀ c ∈ v, isBlank c = true) :
    tokensFrom source p (u ++ v) = tokensFrom source p u ∧
      Scan.faults (scanFrom source p (u ++ v)) = [] := by
  have hhead {c : Char} (hc : c ∈ v.head?) : isBlank c = true := hv c (List.mem_of_mem_head? hc)
  have hseam : Seam u v := .inr fun c hc => by
    unfold isBreak
    rw [hhead hc, Bool.true_or]
  have hcomment : Uncommented u v := fun b _ _ _ _ =>
    ⟨fun hslash => absurd (hhead hslash) (by decide), by
      rw [trivia_of_blank hv, trivia_of_blank hv]⟩
  obtain ⟨htokens, hfaults, -⟩ := scanFrom_join hu hseam hcomment
  obtain ⟨hnone, hnone'⟩ := scanFrom_skipped source (p.after u)
    (trivia_of_blank hv false)
  rw [htokens, hfaults, hnone, List.append_nil]
  exact ⟨rfl, hnone'⟩

/-- A semicolon ends a text that holds no comment. -/
theorem joins_line (hu : Scan.faults (scanFrom source p u) = []) (hcomment : ¬ ['/', '/'] <:+: u) :
    Joins source p u (';' :: v) := by
  refine scanFrom_join hu (.inr fun c hc => ?_) fun b hne hb _ hslashes => ?_
  · cases hc
    rfl
  · exfalso
    obtain ⟨s, hs⟩ := hslashes
    obtain ⟨c, b, rfl⟩ := List.exists_cons_of_ne_nil hne
    obtain ⟨rfl, htail⟩ := List.cons.inj hs
    cases b with
    | nil =>
      obtain ⟨hslash, -⟩ := List.cons.inj htail
      exact absurd hslash (by decide)
    | cons d b =>
      obtain ⟨rfl, -⟩ := List.cons.inj htail
      exact hcomment (List.IsInfix.trans ⟨[], b, rfl⟩ hb.isInfix)

/-- **A line put into a text is scanned on its own.** -/
theorem scanFrom_line {i : Insertion} (hu : Scan.faults (scanFrom source p u) = [])
    (hfits : i.Fits u v) (w : List Char)
    (hgarbage : Scan.faults (scanFrom source (p.after (u ++ i.lead.toList)) i.garbage.toList) = [])
    (hcomment : ¬ ['/', '/'] <:+: i.garbage.toList) :
    tokensFrom source p (u ++ (i.text ++ w)) = tokensFrom source p u ++
        (tokensFrom source (p.after (u ++ i.lead.toList)) i.line.toList ++
          tokensFrom source (p.after (u ++ i.text)) w) ∧
      Scan.faults (scanFrom source p (u ++ (i.text ++ w))) =
        Scan.faults (scanFrom source (p.after (u ++ i.text)) w) := by
  obtain ⟨hlead, htrail⟩ := List.forall_mem_append.1 hfits.blank
  obtain ⟨hfront, hfaults⟩ := joins_blank hu hlead
  let p₁ := p.after (u ++ i.lead.toList)
  have hline : i.line.toList = i.garbage.toList ++ [';'] := String.toList_append
  have htext : u ++ (i.text ++ w) =
      (u ++ i.lead.toList) ++ (i.garbage.toList ++ ([';'] ++ (i.trail.toList ++ w))) := by
    unfold Insertion.text
    rw [hline]
    simp only [List.append_assoc]
  have hafter : p.after (u ++ i.text) =
      ((p₁.after i.garbage.toList).after [';']).after i.trail.toList := by
    unfold Insertion.text
    rw [hline]
    simp only [p₁, Position.after_append]
  have hjoin : Joins source p (u ++ i.lead.toList)
      (i.garbage.toList ++ ([';'] ++ (i.trail.toList ++ w))) :=
    scanFrom_join hfaults hfits.alone.seam hfits.alone.uncommented
  have hjoin₁ : Joins source p₁ i.garbage.toList ([';'] ++ (i.trail.toList ++ w)) :=
    joins_line hgarbage hcomment
  have hjoin₂ : Joins source p₁ i.garbage.toList [';'] := joins_line hgarbage hcomment
  have hjoin₃ : Joins source (p₁.after i.garbage.toList) [';'] (i.trail.toList ++ w) :=
    joins_semicolon
  have hfresh : Fresh i.trail.toList := .of_blank htrail
  obtain ⟨hnone, hnone'⟩ := scanFrom_skipped source
    ((p₁.after i.garbage.toList).after [';']) (trivia_of_blank htrail false)
  have hjoin₄ : Joins source ((p₁.after i.garbage.toList).after [';']) i.trail.toList w :=
    scanFrom_join hnone' hfresh.seam hfresh.uncommented
  rw [htext, hafter]
  constructor
  · rw [hjoin.tokens, hfront, hjoin₁.tokens, hjoin₃.tokens, hjoin₄.tokens, hnone, hline,
      hjoin₂.tokens, List.nil_append, List.append_assoc]
  · rw [hjoin.faults, hjoin₁.faults, hjoin₃.faults, hjoin₄.faults]

end Scans

/-! ## Weaving -/

/-- Among these tokens, this one is the first at the offset or behind it. -/
structure FirstFrom (offset : Nat) (ts : List Token) (t : Token) : Prop where
  behind : (offset : Int) ≤ t.span.start.offset
  first : ∀ u ∈ ts, (offset : Int) ≤ u.span.start.offset → t.span.start.offset ≤ u.span.start.offset

/-- The tokens `ts` of a text and the tokens `rs` of the text with lines put into it: these are
tokens alike to those, and the tokens of the lines before them and at the end. -/
structure Weaves (source : Source) (ts : List Token) (places : List (Nat × Insertion))
    (rs ts' : List Token) (before : Token → List (List Token)) (atEnd : List (List Token)) :
    Prop where
  alike : List.Forall₂ Token.Alike ts ts'
  tokens : rs = weave before ts' ++ atEnd.flatten
  /-- A line stands before the first token that stands behind it. -/
  first : ∀ t', before t' ≠ [] → ∃ i ∈ places.map Prod.snd, ∃ t, (t, t') ∈ ts.zip ts' ∧
    FirstFrom i.offset ts t
  /-- The lines stand in their order, each scanned at its place. -/
  lines : List.Forall₂ (fun place g => ∃ p : Position, p.offset = place.1 ∧
    g = tokensFrom source p place.2.line.toList) places (ts'.flatMap before ++ atEnd)

namespace Weaves

variable {source : Source} {ts rs ts' : List Token} {places : List (Nat × Insertion)}
  {before : Token → List (List Token)} {atEnd : List (List Token)}

/-- Before other tokens there are no lines. -/
theorem eq_nil_of_not_mem (h : Weaves source ts places rs ts' before atEnd) {x : Token}
    (hx : x ∉ ts') : before x = [] := by
  by_contra hne
  obtain ⟨-, -, t, ht, -⟩ := h.first x hne
  exact hx (List.of_mem_zip ht).2

theorem sublist (h : Weaves source ts places rs ts' before atEnd) : ts'.Sublist rs := by
  rw [h.tokens]
  exact (sublist_weave before ts').trans (List.sublist_append_left _ _)

/-- Tokens that stand in front of all lines. -/
theorem append_front {front front' : List Token} (h : Weaves source ts places rs ts' before atEnd)
    (hfront : List.Forall₂ Token.Alike front front')
    (hbefore : ∀ u ∈ front, ∀ i ∈ places.map Prod.snd, u.span.start.offset < i.offset)
    (hapart : ∀ x ∈ front', x ∉ ts') :
    Weaves source (front ++ ts) places (front' ++ rs) (front' ++ ts') before atEnd := by
  have hquiet : ∀ x ∈ front', before x = [] := fun x hx => h.eq_nil_of_not_mem (hapart x hx)
  refine ⟨List.rel_append hfront h.alike, ?_, fun x hx => ?_, ?_⟩
  · rw [h.tokens, weave_append, weave_of_quiet hquiet, List.append_assoc]
  · obtain ⟨i, hi, t, ht, hfirst⟩ := h.first x hx
    refine ⟨i, hi, t, ?_, hfirst.behind, fun u hu hle => ?_⟩
    · rw [List.zip_append hfront.length_eq]
      exact List.mem_append_right _ ht
    · rcases List.mem_append.1 hu with hu | hu
      · exact absurd (hbefore u hu i hi) (Int.not_lt.2 hle)
      · exact hfirst.first u hu hle
  · rw [List.flatMap_append, List.flatMap_eq_nil_iff.2 hquiet]
    exact h.lines

/-- One more line, in front of all tokens. -/
theorem cons_line (h : Weaves source ts places rs ts' before atEnd) (p : Position) {i : Insertion}
    (hbehind : ∀ u ∈ ts, (i.offset : Int) ≤ u.span.start.offset)
    (hordered : ts.Pairwise fun a b => a.span.start.offset ≤ b.span.start.offset)
    (hnodup : ts'.Nodup) :
    ∃ before' atEnd', Weaves source ts ((p.offset, i) :: places)
      (tokensFrom source p i.line.toList ++ rs) ts' before' atEnd' := by
  have hlines : List.Forall₂ _ ((p.offset, i) :: places)
      (tokensFrom source p i.line.toList :: (ts'.flatMap before ++ atEnd)) :=
    .cons ⟨p, rfl, rfl⟩ h.lines
  cases h.alike with
  | nil =>
    -- there is no token that the line could stand before
    refine ⟨before, tokensFrom source p i.line.toList :: atEnd, .nil, ?_, ?_, hlines⟩
    · rw [h.tokens]
      rfl
    · exact fun x hx => absurd (h.eq_nil_of_not_mem List.not_mem_nil) hx
  | @cons t t' ts ts' hpair hrest =>
    let before' (x : Token) : List (List Token) :=
      if x = t' then tokensFrom source p i.line.toList :: before x else before x
    have hhead : before' t' = tokensFrom source p i.line.toList :: before t' := if_pos rfl
    have hother {x : Token} (hx : x ≠ t') : before' x = before x := if_neg hx
    have hrest' : ∀ x ∈ ts', before' x = before x := fun x hx =>
      hother fun heq => (List.nodup_cons.1 hnodup).1 (heq ▸ hx)
    refine ⟨before', atEnd, .cons hpair hrest, ?_, fun x hx => ?_, ?_⟩
    · rw [h.tokens, weave_cons, weave_cons, hhead, weave_congr hrest']
      simp only [List.flatten_cons, List.append_assoc, List.cons_append]
    · by_cases hxt : x = t'
      · subst hxt
        exact ⟨i, List.mem_cons_self, t, List.mem_cons_self, hbehind t List.mem_cons_self,
          List.forall_mem_cons.2 ⟨fun _ => le_rfl,
            fun u hu _ => (List.pairwise_cons.1 hordered).1 u hu⟩⟩
      · rw [hother hxt] at hx
        obtain ⟨j, hj, hfirst⟩ := h.first x hx
        exact ⟨j, List.mem_cons_of_mem i hj, hfirst⟩
    · rw [List.flatMap_cons, hhead, List.flatMap_congr hrest']
      exact hlines

end Weaves

/-! ## The scan of the result -/

open Insertion (insertFrom placesFrom)

/-- The garbage scans without faults wherever it stands, and holds no comment. -/
structure Insertion.Scans (i : Insertion) : Prop where
  faultless : ∀ source p, Scan.faults (scanFrom source p i.garbage.toList) = []
  comment : ¬ ['/', '/'] <:+: i.garbage.toList

theorem map_snd_placesFrom (more : Nat) (is : List Insertion) :
    (placesFrom more is).map Prod.snd = is := by
  induction is generalizing more with
  | nil => rfl
  | cons i is ih => exact congrArg (i :: ·) (ih _)

/-- The lines stand in their order in a text that starts at the offset. Each fits where it is put,
and no token of the text is cut in two. -/
structure Insertable (source : Source) (q : Position) (start : Nat) (text : List Char)
    (is : List Insertion) : Prop where
  ordered : (start :: is.map Insertion.offset).Pairwise (· ≤ ·)
  inside : ∀ i ∈ is, i.offset ≤ start + text.length
  fits : ∀ i ∈ is, i.Fits (text.take (i.offset - start)) (text.drop (i.offset - start))
  clear : ∀ i ∈ is, ∀ t ∈ tokensFrom source q text,
    t.span.stop.offset ≤ i.offset ∨ i.offset ≤ t.span.start.offset

namespace Insertable

variable {source : Source} {q : Position} {start : Nat} {u v : List Char} {i : Insertion}
  {is : List Insertion}

theorem le_of_mem {text : List Char} (h : Insertable source q start text (i :: is)) :
    start ≤ i.offset ∧ ∀ j ∈ i :: is, i.offset ≤ j.offset := by
  obtain ⟨hstart, hordered⟩ := List.pairwise_cons.1 h.ordered
  exact ⟨hstart _ List.mem_cons_self, List.forall_mem_cons.2 ⟨le_rfl, fun j hj =>
    (List.pairwise_cons.1 hordered).1 _ (List.mem_map_of_mem hj)⟩⟩

/-- The text, cut where the first line is put. -/
theorem exists_cut {text : List Char} (h : Insertable source q start text (i :: is)) :
    ∃ u v, text = u ++ v ∧ i.offset = start + u.length ∧ i.Fits u v ∧
      insertFrom start text (i :: is) = u ++ (i.text ++ insertFrom i.offset v is) := by
  refine ⟨_, _, (List.take_append_drop (i.offset - start) text).symm, ?_,
    h.fits i List.mem_cons_self, rfl⟩
  have hinside := h.inside i List.mem_cons_self
  obtain ⟨hstart, -⟩ := h.le_of_mem
  rw [List.length_take]
  omega

/-- Behind the first line the others stand as before. -/
theorem tail (h : Insertable source q start (u ++ v) (i :: is))
    (hcut : i.offset = start + u.length) (hjoin : Joins source q u v) :
    Insertable source (q.after u) i.offset v is where
  ordered := (List.pairwise_cons.1 h.ordered).2
  inside j hj := by
    have hj := h.inside j (List.mem_cons_of_mem i hj)
    rw [List.length_append] at hj
    omega
  fits j hj := by
    have hlater := h.le_of_mem.2 j (List.mem_cons_of_mem i hj)
    have hsum : j.offset - start = u.length + (j.offset - i.offset) := by omega
    have hfits := h.fits j (List.mem_cons_of_mem i hj)
    rw [hsum, List.take_length_add_append, List.drop_length_add_append] at hfits
    exact hfits.suffix (List.suffix_append _ _)
  clear j hj t ht := by
    refine h.clear j (List.mem_cons_of_mem i hj) t ?_
    rw [hjoin.tokens]
    exact List.mem_append_right _ ht

end Insertable

/-- **The tokens of a text with lines put into it.** -/
theorem scanFrom_inserted (source source' : Source) {is : List Insertion} {start more : Nat}
    {text : List Char} {q p : Position} (hq : q.offset = start) (hp : p.offset = start + more)
    (hfaults : Scan.faults (scanFrom source q text) = [])
    (h : Insertable source q start text is) (hscans : ∀ i ∈ is, i.Scans) :
    Scan.faults (scanFrom source' p (insertFrom start text is)) = [] ∧
      ∃ ts before atEnd, Weaves source' (tokensFrom source q text) (placesFrom more is)
        (tokensFrom source' p (insertFrom start text is)) ts before atEnd := by
  induction is generalizing start more text q p with
  | nil =>
    obtain ⟨hfaults', halike⟩ := scanFrom_alike source' p hfaults
    refine ⟨hfaults', _, fun _ => [], [], halike, ?_, fun _ hne => absurd rfl hne, ?_⟩
    · rw [weave_of_quiet fun _ _ => rfl]
      exact (List.append_nil _).symm
    · rw [List.flatMap_eq_nil_iff.2 fun _ _ => rfl]
      exact .nil
  | cons i is ih =>
    obtain ⟨u, v, rfl, hcut, hfits, hinserted⟩ := h.exists_cut
    obtain ⟨hscan, hscans'⟩ := List.forall_mem_cons.1 hscans
    have hplace : (q.after u).offset = i.offset := by
      rw [Position.offset_after, hq, hcut]
    -- the text in front of the line is scanned alike in both texts
    obtain ⟨hfront, hjoin⟩ := scanFrom_split hfaults
      (by rw [hplace]; exact fun t ht => h.clear i List.mem_cons_self t ht)
      (uncommented_of_not_inComment hfits.comment)
    obtain ⟨hfront', halike⟩ := scanFrom_alike source' p hfront
    obtain ⟨htokens, hfaults'⟩ := scanFrom_line hfront' hfits (insertFrom i.offset v is)
      (hscan.faultless _ _) hscan.comment
    -- and so is what is behind it, with the other lines
    have hrest : (p.after (u ++ i.text)).offset = i.offset + (more + i.text.length) := by
      rw [Position.offset_after, hp, List.length_append, hcut]
      omega
    obtain ⟨hdone, ts, before, atEnd, hweaves⟩ :=
      ih hplace hrest (hjoin.faults ▸ hfaults) (h.tail hcut hjoin) hscans'
    have hput : (p.after (u ++ i.lead.toList)).offset =
        more + i.offset + i.lead.toList.length := by
      rw [Position.offset_after, hp, List.length_append, hcut]
      omega
    have hnodup := tokensFrom_nodup source' p (u ++ (i.text ++ insertFrom i.offset v is))
    rw [htokens] at hnodup
    obtain ⟨-, hnodup', hapart⟩ := List.nodup_append.1 hnodup
    obtain ⟨hbounds, -⟩ := tokensFrom_ordered source q u
    obtain ⟨hbounds', hpairwise⟩ := tokensFrom_ordered source (q.after u) v
    rw [hplace] at hbounds hbounds'
    obtain ⟨before', atEnd', hline⟩ := hweaves.cons_line (p.after (u ++ i.lead.toList)) (i := i)
      (fun t ht => (hbounds' t ht).1)
      (hpairwise.imp_of_mem fun {a b} ha _ hab => by
        have ha := hbounds' a ha
        omega)
      (hnodup'.sublist (hweaves.sublist.trans (List.sublist_append_right _ _)))
    rw [hinserted, htokens, hfaults', hjoin.tokens, placesFrom, ← hput]
    refine ⟨hdone, _, before', atEnd', hline.append_front halike (fun t ht j hj => ?_)
      fun x hx hx' => hapart x hx x (hline.sublist.subset hx') rfl⟩
    rw [List.map_cons, map_snd_placesFrom] at hj
    have hj := h.le_of_mem.2 j hj
    have ht := hbounds t ht
    omega

end ArcLang
