import ArcLang.Proofs.Partition
import ArcLang.Proofs.Rescanning

/-!
# The longest lexeme

Where a piece of a text starts, the scanner takes the longest lexeme that fits, whatever follows,
and gives a fault only where no lexeme fits. Which lexemes there are is said by `Kind.Spells`.

* `Kind.Spells.shape`: the first character tells which lexemes may follow.
* `Piece.front_of_prefix`: a lexeme at the front of a text is the piece there, or is shorter.
* `scan_takes_longest`: every step of a scan takes the longest lexeme, or there is none.
-/

namespace ArcLang

open Reading (isWordStart isWordChar wordKind)

/-! ## Lexemes by their first character -/

/-- **The first character tells which lexemes may follow,** and of what kind they are. -/
theorem Kind.Spells.shape {k : Kind} {c : Char} {t : List Char} (h : k.Spells (c :: t)) :
    if isWordStart c then k = wordKind (c :: t) ∧ ∀ d ∈ t, isWordChar d = true
    else if c.isDigit then k = .number ∧ ∀ d ∈ t, d.isAlphanum = true
    else if c = '"' then k = .string ∧ QuotedLetters c 0 (c :: t)
    else if c = '\x27' then k = .char ∧ QuotedLetters c 1 (c :: t)
    else ∃ s, k = .symbol s ∧ s.spelling.toList = c :: t := by
  cases k with
  | endOfInput => exact h.elim
  | error => exact h.elim
  | identifier =>
    obtain ⟨d, r, heq, hd, hr, hnone⟩ := h
    cases heq
    rw [if_pos hd]
    exact ⟨(Reading.wordKind_of_none hnone).symm, hr⟩
  | keyword k =>
    have heq : c :: t = k.spelling.toList := h
    obtain ⟨d, r, hspelling, hd, hr⟩ := k.word_spelling
    have hkind := Reading.wordKind_spelling k
    rw [← heq] at hspelling hkind
    cases hspelling
    rw [if_pos hd]
    exact ⟨hkind.symm, hr⟩
  | number =>
    obtain ⟨d, r, heq, hd, hr⟩ := h
    cases heq
    rw [if_neg (by rw [Reading.isWordStart_of_isDigit hd]; decide), if_pos hd]
    exact ⟨rfl, hr⟩
  | string =>
    obtain ⟨letters, heq, hletters⟩ := h
    cases heq
    rw [if_neg (by decide), if_neg (by decide), if_pos rfl]
    exact ⟨rfl, letters, rfl, hletters⟩
  | char =>
    obtain ⟨letters, heq, hletters⟩ := h
    cases heq
    rw [if_neg (by decide), if_neg (by decide), if_neg (by decide), if_pos rfl]
    exact ⟨rfl, letters, rfl, hletters⟩
  | symbol s =>
    have heq : s.spelling.toList = c :: t := Eq.symm h
    obtain ⟨hword, hdigit, hquote, hapostrophe⟩ := Symbol.head_spelling heq
    rw [if_neg (by rw [hword]; decide), if_neg (by rw [hdigit]; decide), if_neg hquote,
      if_neg hapostrophe]
    exact ⟨s, rfl, heq⟩

/-! ## The piece at the front of a text -/

/-- A run that fits at the front is the whole run there, or is shorter. -/
theorem run_eq_or_lt {p : Char → Bool} {t r : List Char} (ht : ∀ d ∈ t, p d = true)
    (hstart : t <+: r) : t = r.takeWhile p ∨ t.length < (r.takeWhile p).length := by
  obtain ⟨rest, rfl⟩ := hstart
  rw [List.takeWhile_append_of_pos ht, List.length_append]
  cases h : rest.takeWhile p with
  | nil => exact .inl (List.append_nil t).symm
  | cons d ds => exact .inr (by rw [List.length_cons]; omega)

theorem Symbol.spelling_injective {s s' : Symbol}
    (h : s.spelling.toList = s'.spelling.toList) : s = s' := by
  have hfront (u : Symbol) : front? u.spelling.toList = some u := by cases u <;> decide
  have := hfront s
  rw [h, hfront s'] at this
  exact (Option.some.inj this).symm

/-- **The symbol at the front of a text is the longest that fits there.** -/
theorem Symbol.front?_of_prefix {s : Symbol} {text : List Char}
    (h : s.spelling.toList <+: text) : ∃ s', front? text = some s' ∧
      (s = s' ∨ s.spelling.toList.length < s'.spelling.toList.length) := by
  have hfits : s.spelling.toList.isPrefixOf text = true := List.isPrefixOf_iff_prefix.2 h
  cases hfront : front? text with
  | none =>
    have hnone := List.find?_eq_none.1 hfront s (mem_all s)
    exact absurd hfits hnone
  | some s' =>
    refine ⟨s', rfl, ?_⟩
    -- the symbols before the one that was found do not fit, and those behind it are no longer
    obtain ⟨hfits', before, behind, hall, hbefore⟩ := List.find?_eq_some_iff_append.1 hfront
    have hle : s.spelling.toList.length ≤ s'.spelling.toList.length := by
      have hmem := mem_all s
      rw [hall] at hmem
      rcases List.mem_append.1 hmem with hmem | hmem
      · have hneg := hbefore s hmem
        rw [hfits] at hneg
        exact absurd hneg (by decide)
      · rcases List.mem_cons.1 hmem with rfl | hmem
        · exact le_rfl
        · have hsorted := all_pairwise
          rw [hall] at hsorted
          exact List.rel_of_pairwise_cons (List.pairwise_append.1 hsorted).2.1 hmem
    rcases hle.lt_or_eq with hlt | heq
    · exact .inr hlt
    · have hfits' := List.isPrefixOf_iff_prefix.1 hfits'
      exact .inl (spelling_injective
        ((List.prefix_of_prefix_length_le h hfits' hle).eq_of_length heq))

namespace Piece

variable {c : Char} {r : List Char}

/-- **A lexeme at the front of a text is the piece there, or is shorter than it.** -/
theorem front_of_prefix {k : Kind} {w : List Char} (h : k.Spells w) (hstart : w <+: c :: r) :
    ∃ k', (front c r).outcome = .ok k' ∧
      (k = k' ∧ w = (front c r).text ∨ w.length < (front c r).text.length) := by
  obtain ⟨d, t, rfl, -⟩ := h.head
  obtain ⟨rfl, ht⟩ := List.cons_prefix_cons.1 hstart
  have hshape := h.shape
  unfold front
  dsimp only
  unfold Reading.front
  by_cases hword : isWordStart d = true
  · rw [if_pos hword] at hshape ⊢
    unfold Reading.word
    rw [take_length_takeWhile]
    refine ⟨_, rfl, ?_⟩
    rcases run_eq_or_lt hshape.2 ht with heq | hlt
    · exact .inl ⟨by rw [← heq]; exact hshape.1, by rw [← heq]⟩
    · exact .inr (Nat.succ_lt_succ hlt)
  rw [if_neg hword] at hshape ⊢
  by_cases hdigit : d.isDigit = true
  · rw [if_pos hdigit] at hshape ⊢
    unfold Reading.number
    rw [take_length_takeWhile]
    refine ⟨_, rfl, ?_⟩
    rcases run_eq_or_lt hshape.2 ht with heq | hlt
    · exact .inl ⟨hshape.1, by rw [← heq]⟩
    · exact .inr (Nat.succ_lt_succ hlt)
  rw [if_neg hdigit] at hshape ⊢
  -- a literal ends at its second quote, so there is only one that may fit
  have hliteral {kind : Kind} {name : String} {least : Nat} (hd : d.isAlpha = false)
      (hletters : QuotedLetters d least (d :: t)) :
      Reading.literal d kind name least r = ⟨t.length, .ok kind⟩ ∧ r.take t.length = t := by
    obtain ⟨letters, heq, hletters, hlong⟩ := hletters
    obtain ⟨rest, rfl⟩ := ht
    cases heq
    exact ⟨Reading.literal_of_letters hd hletters hlong, List.take_left⟩
  by_cases hquote : d = '"'
  · rw [if_pos hquote] at hshape ⊢
    obtain ⟨hreading, htake⟩ := hliteral (by rw [hquote]; rfl) hshape.2
    rw [hreading]
    exact ⟨_, rfl, .inl ⟨hshape.1, by rw [htake]⟩⟩
  rw [if_neg hquote] at hshape ⊢
  by_cases hapostrophe : d = '\x27'
  · rw [if_pos hapostrophe] at hshape ⊢
    obtain ⟨hreading, htake⟩ := hliteral (by rw [hapostrophe]; rfl) hshape.2
    rw [hreading]
    exact ⟨_, rfl, .inl ⟨hshape.1, by rw [htake]⟩⟩
  rw [if_neg hapostrophe] at hshape ⊢
  obtain ⟨s, rfl, hs⟩ := hshape
  obtain ⟨s', hfront, hlongest⟩ := Symbol.front?_of_prefix (hs ▸ hstart)
  -- the piece is spelled like the symbol that was found
  have hpiece : (Reading.symbol d r).outcome = .ok (.symbol s') := by
    unfold Reading.symbol
    rw [hfront]
  have hspells : d :: r.take (Reading.symbol d r).more = s'.spelling.toList :=
    symbol_spells hpiece
  refine ⟨_, hpiece, ?_⟩
  rw [hspells, ← hs]
  rcases hlongest with rfl | hlt
  · exact .inl ⟨rfl, rfl⟩
  · exact .inr hlt

example : (front '<' ['<', '=', '=']).text = ['<', '<', '='] := by decide

/-- What is refused is refused for its characters alone. -/
theorem category_of_front_error {why : Refusal} (h : (front c r).outcome = .error why) :
    why.cause.category = .lexical := by
  have hliteral {quote : Char} {kind : Kind} {name : String} {least : Nat}
      (h : (Reading.literal quote kind name least r).outcome = .error why) :
      why.cause.category = .lexical := by
    unfold Reading.literal Reading.brokenLiteral at h
    dsimp only at h
    repeat' split at h
    all_goals cases h
    all_goals rfl
  unfold front Reading.front at h
  dsimp only at h
  split at h
  · cases h
  split at h
  · cases h
  split at h
  · exact hliteral h
  split at h
  · exact hliteral h
  unfold Reading.symbol at h
  split at h
  · cases h
  · cases h
    rfl

end Piece

/-! ## Every step of a scan -/

/-- The text `w` is the longest lexeme at the front of a text, and `k` is its kind: all other
lexemes that fit there are shorter. -/
def Kind.IsLongest (k : Kind) (w rest : List Char) : Prop :=
  k.Spells w ∧ w <+: rest ∧ ∀ k' w', k'.Spells w' → w' <+: rest →
    k' = k ∧ w' = w ∨ w'.length < w.length

/-- The longest lexeme is the only one. -/
theorem Kind.IsLongest.unique {k k' : Kind} {w w' rest : List Char} (h : k.IsLongest w rest)
    (h' : k'.IsLongest w' rest) : k' = k ∧ w' = w := by
  rcases h.2.2 _ _ h'.1 h'.2.1 with heq | hlt
  · exact heq
  · rcases h'.2.2 _ _ h.1 h.2.1 with ⟨rfl, rfl⟩ | hlt'
    · exact ⟨rfl, rfl⟩
    · omega

/-- **A piece with a kind is the longest lexeme at its place.** -/
theorem Piece.isLongest_front {c : Char} {r : List Char} {k : Kind}
    (h : (front c r).outcome = .ok k) : k.IsLongest (front c r).text (c :: r) := by
  refine ⟨front_spells h, ⟨_, text_append_rest c r⟩, fun k' w hw hstart => ?_⟩
  obtain ⟨k'', hk'', hlongest⟩ := front_of_prefix hw hstart
  rw [h] at hk''
  cases hk''
  exact hlongest

/-- The longest lexeme at a place is the piece there. -/
theorem Kind.IsLongest.front {k : Kind} {w : List Char} {c : Char} {r : List Char}
    (h : k.IsLongest w (c :: r)) : (Piece.front c r).outcome = .ok k ∧
      (Piece.front c r).text = w := by
  obtain ⟨k', hk', -⟩ := Piece.front_of_prefix h.1 h.2.1
  obtain ⟨rfl, htext⟩ := h.unique (Piece.isLongest_front hk')
  exact ⟨hk', htext⟩

/-- The text does not end, and it starts neither with a blank nor with a comment. -/
def StartsPiece (rest : List Char) : Prop :=
  ∃ c r, rest = c :: r ∧ isBlank c = false ∧ ¬ ['/', '/'] <+: rest

theorem startsPiece_of_trivia {inComment : Bool} {text : List Char} {c : Char} {r : List Char}
    (h : (trivia inComment text).2 = c :: r) : StartsPiece (c :: r) := by
  fun_induction trivia inComment text with
  | case1 => cases h
  | case2 d s skipped rest hrec ih => rw [hrec] at ih; exact ih h
  | case3 b d s _ hblank skipped rest hrec ih => rw [hrec] at ih; exact ih h
  | case4 b d s _ hblank hcomment skipped rest hrec ih => rw [hrec] at ih; exact ih h
  | case5 b d s _ hblank hcomment =>
    cases h
    refine ⟨_, _, rfl, Bool.eq_false_iff.2 hblank, ?_⟩
    rintro ⟨rest, hrest⟩
    cases hrest
    exact hcomment rfl

namespace Scan

/-- A step of a scan that starts at the front of a text takes the longest lexeme there, with its
kind; where there is none, it gives a fault. -/
structure TakesLongest (x : Scan) (rest : List Char) : Prop where
  longest : (∃ k w, Kind.Spells k w ∧ w <+: rest) →
    ∃ t, x = .token t ∧ t.kind.IsLongest t.lexeme.toList rest
  refused : (¬ ∃ k w, Kind.Spells k w ∧ w <+: rest) →
    ∃ why t, x = .fault why t ∧ why.category = .lexical

theorem takesLongest_ofPiece (source : Source) (p : Position) (c : Char) (r : List Char) :
    (ofPiece source p (Piece.front c r)).TakesLongest (c :: r) := by
  unfold ofPiece
  dsimp only
  constructor
  · rintro ⟨k, w, hspells, hstart⟩
    obtain ⟨k', hk', -⟩ := Piece.front_of_prefix hspells hstart
    rw [hk']
    refine ⟨_, rfl, ?_⟩
    dsimp only
    rw [String.toList_ofList]
    exact Piece.isLongest_front hk'
  · intro hnone
    cases h : (Piece.front c r).outcome with
    | ok k =>
      exact absurd ⟨k, _, Piece.front_spells h, _, Piece.text_append_rest c r⟩ hnone
    | error why => exact ⟨_, _, rfl, Piece.category_of_front_error h⟩

/-- The step of a scan stands in a text: it starts where its token says, at what is neither blank
nor comment, and it takes the longest lexeme there. -/
def Munches (text : List Char) (x : Scan) : Prop :=
  ∃ before rest, text = before ++ rest ∧ x.shown.place.offset = before.length ∧
    StartsPiece rest ∧ x.TakesLongest rest

end Scan

theorem scanFrom_munches (source : Source) (before text : List Char) (p : Position)
    (hp : p.offset = before.length) : ∃ xs e, scanFrom source p text = xs ++ [.token e] ∧
      e.isEnd = true ∧ ∀ x ∈ xs, x.Munches (before ++ text) := by
  fun_induction scanFrom source p text generalizing before with
  | case1 p text start h => exact ⟨[], _, rfl, rfl, List.forall_mem_nil _⟩
  | case2 p text start c r h piece ih =>
    have hwhole := trivia_append false text
    rw [h] at hwhole
    have hstart : start.offset = (before ++ (trivia false text).1).length := by
      rw [Position.offset_after, hp, List.length_append]
    obtain ⟨xs, e, hxs, hend, hmunches⟩ :=
      ih (before ++ (trivia false text).1 ++ piece.text)
        (by rw [Position.offset_after, hstart]; exact List.length_append.symm)
    have htext : before ++ text = before ++ (trivia false text).1 ++ (c :: r) := by
      rw [List.append_assoc, hwhole]
    refine ⟨_ :: xs, e, by rw [hxs]; rfl, hend, List.forall_mem_cons.2 ⟨?_, ?_⟩⟩
    · refine ⟨_, _, htext, ?_, startsPiece_of_trivia h, Scan.takesLongest_ofPiece source _ c r⟩
      have hplace : (Scan.ofPiece source start piece).shown.place = start.inFile source.file := by
        unfold Scan.ofPiece
        dsimp only
        split <;> rfl
      rw [hplace, ← hstart]
      rfl
    · rw [List.append_assoc _ piece.text, Piece.text_append_rest, ← htext] at hmunches
      exact hmunches

/-- **Every step of a scan takes the longest lexeme at its place,** with the kind of that lexeme;
where no lexeme fits, it gives a fault. There is a step wherever one can start: what the steps take
divides the text up, with nothing but blanks and whole comments before each of them. -/
theorem scan_takes_longest (source : Source) (text : String) :
    ∃ xs e, scan source text = xs ++ [.token e] ∧ e.isEnd = true ∧
      (∀ x ∈ xs, x.Munches text.toList) ∧ Partitions text.toList (Scan.tokens xs) e := by
  obtain ⟨xs, e, hxs, hend, hmunches⟩ := scanFrom_munches source [] text.toList .start rfl
  have hscan : scan source text = xs ++ [.token e] := hxs
  obtain ⟨ts, e', hts, hpartitions⟩ := scan_partitions source text
  rw [hscan, Scan.tokens, List.map_append] at hts
  obtain ⟨rfl, hlast⟩ := List.append_inj' hts rfl
  obtain rfl : e = e' := (List.cons.inj hlast).1
  exact ⟨xs, e, hscan, hend, hmunches, hpartitions⟩

end ArcLang
