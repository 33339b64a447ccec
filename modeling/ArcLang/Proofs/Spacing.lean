import ArcLang.Proofs.Seams
import ArcLang.Proofs.Skipping

/-!
# Lexemes with gaps between them

Lexemes of any kinds are written one after the other with gaps between them, maybe also before the
first and behind the last. A gap begins with a blank, and whole comments may follow. Scanning gives
back the lexemes with their kinds: each ends where the gap begins, whatever stands behind that.

* `IsGap`: what may stand between two lexemes.
* `Spaced`: lexemes with gaps between neighbours, as a text.
* `Kind.Spells.isLongest`: before a gap, a lexeme is the longest that fits.
* `drained_spaced`: the statement about streams.
-/

namespace ArcLang

/-! ## Gaps -/

/-- Blanks, and comments each of which ends with its line. -/
inductive Filling : List Char → Prop
  | nil : Filling []
  | blank {c : Char} {gap : List Char} : isBlank c = true → Filling gap → Filling (c :: gap)
  | comment {body gap : List Char} : '\n' ∉ body → Filling gap →
      Filling ('/' :: '/' :: body ++ '\n' :: gap)

/-- Blanks and comments, the first of them a blank. -/
def IsGap (gap : List Char) : Prop := ∃ c rest, gap = c :: rest ∧ isBlank c = true ∧ Filling rest

theorem IsGap.filling {gap : List Char} (h : IsGap gap) : Filling gap := by
  obtain ⟨c, rest, rfl, hc, hrest⟩ := h
  exact .blank hc hrest

/-- A comment is skipped with the end of its line. -/
theorem trivia_comment {body : List Char} (hbody : '\n' ∉ body) (rest : List Char) :
    trivia true (body ++ '\n' :: rest) =
      (body ++ '\n' :: (trivia false rest).1, (trivia false rest).2) := by
  induction body with
  | nil => rfl
  | cons c body ih =>
    rw [List.mem_cons, not_or] at hbody
    rw [List.cons_append, trivia_inComment, bne_iff_ne.2 (Ne.symm hbody.1), ih hbody.2]
    rfl

/-- **All of a gap is skipped,** and then what can be skipped behind it. -/
theorem Filling.trivia_append {gap : List Char} (h : Filling gap) (rest : List Char) :
    trivia false (gap ++ rest) = (gap ++ (trivia false rest).1, (trivia false rest).2) := by
  induction h with
  | nil => rfl
  | blank hc _ ih => rw [List.cons_append, trivia_blank hc, ih]; rfl
  | @comment body gap hbody _ ih =>
    have htext : '/' :: '/' :: body ++ '\n' :: gap ++ rest =
        '/' :: '/' :: (body ++ '\n' :: (gap ++ rest)) := by simp
    rw [htext, trivia_slashes _ rfl, trivia_inComment, bne_iff_ne.2 (by decide),
      trivia_comment hbody, ih]
    simp

theorem scanFrom_gap {source : Source} {p : Position} {gap : List Char} (h : Filling gap)
    (rest : List Char) : scanFrom source p (gap ++ rest) = scanFrom source (p.after gap) rest :=
  scanFrom_of_skipped (h.trivia_append rest)

/-! ## Lexemes before a gap -/

/-- The text is empty or starts with a blank. -/
def EndsWord (rest : List Char) : Prop := ∀ c ∈ rest.head?, isBlank c = true

/-- Nothing, or a gap. -/
def MaybeGap (gap : List Char) : Prop := gap = [] ∨ IsGap gap

theorem MaybeGap.filling {gap : List Char} (h : MaybeGap gap) : Filling gap := by
  rcases h with rfl | h
  · exact .nil
  · exact h.filling

theorem MaybeGap.endsWord {gap : List Char} (h : MaybeGap gap) : EndsWord gap := by
  rcases h with rfl | ⟨c, rest, rfl, hc, -⟩
  · rintro _ ⟨⟩
  · rintro _ ⟨⟩
    exact hc

theorem IsGap.endsWord {gap : List Char} (h : IsGap gap) (rest : List Char) :
    EndsWord (gap ++ rest) := by
  obtain ⟨c, r, rfl, hc, -⟩ := h
  rintro _ ⟨⟩
  exact hc

namespace Kind.Spells

variable {k : Kind} {w rest : List Char}

/-- **Before a gap, a lexeme is the longest that fits.** -/
theorem isLongest (h : k.Spells w) (hrest : EndsWord rest) : k.IsLongest w (w ++ rest) := by
  have halone : k.IsLongest w w := by
    obtain ⟨c, r, rfl, -⟩ := h.head
    obtain ⟨k', hk', hfits⟩ := Piece.front_of_prefix h (List.prefix_refl (c :: r))
    have hlongest := Piece.isLongest_front hk'
    -- the piece at the front of the lexeme is not longer than the lexeme
    rcases hfits with ⟨rfl, htext⟩ | hlt
    · rwa [← htext] at hlongest
    · exact absurd hlongest.2.1.length_le (Nat.not_le.2 hlt)
  refine halone.append (.inr fun c hc => ?_)
  unfold isBreak
  rw [hrest c hc, Bool.true_or]

/-- Before a gap, a lexeme starts a piece: an operator does not make a comment with what follows. -/
theorem startsPiece (h : k.Spells w) (hrest : EndsWord rest) : StartsPiece (w ++ rest) := by
  obtain ⟨c, r, rfl, hblank, hslash⟩ := h.head
  refine ⟨c, r ++ rest, rfl, hblank, ?_⟩
  rintro ⟨more, hmore⟩
  obtain ⟨rfl, htail⟩ := List.cons.inj hmore
  cases r with
  | nil =>
    have hhead : rest.head? = some '/' := (congrArg List.head? htail).symm
    exact absurd (hrest '/' hhead) (by decide)
  | cons d r =>
    obtain ⟨rfl, -⟩ := List.cons.inj htail
    exact hslash rfl rfl

/-- **A lexeme before a gap is scanned as one token of its kind.** -/
theorem scanFrom_cons (h : k.Spells w) (hrest : EndsWord rest) (source : Source) (p : Position) :
    ∃ t, t.kind = k ∧ t.lexeme = String.ofList w ∧
      scanFrom source p (w ++ rest) = .token t :: scanFrom source (p.after w) rest := by
  have htrivia : trivia false (w ++ rest) = ([], w ++ rest) := by
    have hstarts := h.startsPiece hrest
    obtain ⟨c, r, heq⟩ : ∃ c r, w ++ rest = c :: r := List.exists_cons_of_ne_nil <|
      List.append_ne_nil_of_left_ne_nil h.ne_nil rest
    rw [heq] at hstarts ⊢
    exact trivia_piece hstarts
  exact ⟨_, rfl, rfl, scanFrom_cons_longest source p htrivia (h.isLongest hrest)⟩

end Kind.Spells

/-! ## Lexemes with gaps between them -/

/-- Lexemes with their kinds, written with gaps between neighbours. -/
inductive Spaced : List (Kind × String) → List Char → Prop
  | nil : Spaced [] []
  | last {k : Kind} {w : String} : k.Spells w.toList → Spaced [(k, w)] w.toList
  | next {k : Kind} {w : String} {gap rest : List Char} {word : Kind × String}
      {words : List (Kind × String)} : k.Spells w.toList → IsGap gap → Spaced (word :: words) rest →
      Spaced ((k, w) :: word :: words) (w.toList ++ (gap ++ rest))

/-- What a token is, wherever it stands. -/
def Token.word (t : Token) : Kind × String := (t.kind, t.lexeme)

/-- **The scan of spaced lexemes is a token for each,** and then the end token. -/
theorem Spaced.scanFrom {words : List (Kind × String)} {body trail : List Char}
    (h : Spaced words body) (htrail : MaybeGap trail) (source : Source) (p : Position) :
    ∃ (ts : List Token) (e : Token),
      ArcLang.scanFrom source p (body ++ trail) = ts.map .token ++ [.token e] ∧
      ts.map Token.word = words ∧ e.word = (.endOfInput, "") := by
  have hend (p : Position) : ∃ e, ArcLang.scanFrom source p trail = [.token e] ∧
      e.word = (.endOfInput, "") := by
    have htrivia := htrail.filling.trivia_append []
    simp only [List.append_nil] at htrivia
    exact ⟨_, scanFrom_of_trivia_nil htrivia, rfl⟩
  induction h generalizing p with
  | nil =>
    obtain ⟨e, he, hword⟩ := hend p
    exact ⟨[], e, he, rfl, hword⟩
  | @last k w hw =>
    obtain ⟨t, hkind, hlexeme, hscan⟩ := hw.scanFrom_cons htrail.endsWord source p
    obtain ⟨e, he, hword⟩ := hend (p.after w.toList)
    refine ⟨[t], e, by rw [hscan, he]; rfl, ?_, hword⟩
    rw [List.map_singleton, Token.word, hkind, hlexeme, String.ofList_toList]
  | @next k w gap rest word words hw hgap _ ih =>
    rw [List.append_assoc, List.append_assoc]
    obtain ⟨t, hkind, hlexeme, hscan⟩ := hw.scanFrom_cons (hgap.endsWord (rest ++ trail)) source p
    obtain ⟨ts, e, hts, hwords, hword⟩ := ih ((p.after w.toList).after gap)
    refine ⟨t :: ts, e, ?_, ?_, hword⟩
    · rw [hscan, scanFrom_gap hgap.filling, hts]
      rfl
    · rw [List.map_cons, hwords, Token.word, hkind, hlexeme, String.ofList_toList]

theorem Scan.untilFault_map_token (ts : List Token) :
    Scan.untilFault (ts.map .token) = (ts, none) := by
  induction ts with
  | nil => rfl
  | cons t ts ih => rw [List.map_cons, Scan.untilFault, ih]

/-- **Scanning undoes writing lexemes with gaps between them.** The stream of the text, with a
collector or without, delivers a token for each lexeme, with its kind, and the end token, and then
it ends; it raises nothing, and a collector stays as it is. -/
theorem drained_spaced (source : Source) {words : List (Kind × String)}
    {lead body trail : List Char} (hlead : MaybeGap lead) (hbody : Spaced words body)
    (htrail : MaybeGap trail) :
    let text := String.ofList (lead ++ (body ++ trail))
    ∃ (ts : List Token) (e : Token), ts.map Token.word = words ∧ e.word = (.endOfInput, "") ∧
      (∀ errors, (Session.drained source text errors).1 = (ts ++ [e]).map .token ++ [.ended]) ∧
      ∀ errors, (Session.drained source text (some errors)).2.errors = some errors := by
  intro text
  obtain ⟨ts, e, hts, hwords, hend⟩ :=
    hbody.scanFrom htrail source (Position.start.after lead)
  have hscan : scan source text = (ts ++ [e]).map .token := by
    unfold scan
    rw [String.toList_ofList, scanFrom_gap hlead.filling, hts, List.map_append]
    rfl
  have hopened : ([scan source text] : List (List Scan))[0]? = some (scan source text) := rfl
  have htokens : Scan.tokens (scan source text) = ts ++ [e] := by
    rw [hscan, tokens_map_token]
  have hfaults : Scan.faults (scan source text) = [] := by
    rw [hscan, faults_map_token]
  have hrecords (errors : Collector) := Session.drainFor_records
    (s := { scans := scan source text, streams := [scan source text], errors := some errors })
    hopened rfl (Nat.lt_succ_self _)
  rw [htokens, hfaults] at hrecords
  refine ⟨ts, e, hwords, hend, fun errors => ?_, fun errors => (hrecords errors).2⟩
  cases errors with
  | some errors => exact (hrecords errors).1
  | none =>
    have hraises := Session.drainFor_raises
      (s := { scans := scan source text, streams := [scan source text], errors := none })
      hopened rfl (Nat.lt_succ_self _)
    have huntil : Scan.untilFault (scan source text) = (ts ++ [e], none) := by
      rw [hscan, Scan.untilFault_map_token]
    rw [huntil] at hraises
    exact hraises

/-- A slash with a comment behind it, and a name that starts with a reserved word. -/
theorem drained_spaced_of_slash :
    ∃ (ts : List Token) (e : Token),
      ts.map Token.word = [(.symbol .slash, "/"), (.identifier, "if0"), (.number, "0x1f")] ∧
      e.word = (.endOfInput, "") ∧
      (∀ errors, (Session.drained ⟨"m.arc", [], []⟩ " / // a\nif0\t0x1f\r" errors).1 =
        (ts ++ [e]).map .token ++ [.ended]) ∧
      ∀ errors, (Session.drained ⟨"m.arc", [], []⟩ " / // a\nif0\t0x1f\r" (some errors)).2.errors =
        some errors := by
  have hline : Filling ('/' :: '/' :: [' ', 'a'] ++ '\n' :: []) := .comment (by decide) .nil
  have hcomment : IsGap [' ', '/', '/', ' ', 'a', '\n'] := ⟨' ', _, rfl, rfl, hline⟩
  have hblank {c : Char} (h : isBlank c = true) : IsGap [c] := ⟨c, [], rfl, h, .nil⟩
  have hbody : Spaced [(.symbol .slash, "/"), (.identifier, "if0"), (.number, "0x1f")]
      ("/".toList ++ ([' ', '/', '/', ' ', 'a', '\n'] ++
        ("if0".toList ++ (['\t'] ++ "0x1f".toList)))) :=
    .next (by decide) hcomment (.next (by decide) (hblank rfl) (.last (by decide)))
  have htext : " / // a\nif0\t0x1f\r" = String.ofList ([' '] ++ ("/".toList ++
      ([' ', '/', '/', ' ', 'a', '\n'] ++ ("if0".toList ++ (['\t'] ++ "0x1f".toList))) ++
        ['\r'])) := by
    decide +kernel
  rw [htext]
  exact drained_spaced ⟨"m.arc", [], []⟩ (.inr (hblank rfl)) hbody (.inr (hblank rfl))

end ArcLang
