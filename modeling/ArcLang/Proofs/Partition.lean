import ArcLang.Proofs.Spelling
import ArcLang.Token.Session

/-!
# What a scan covers

The tokens of a scan, error tokens included, lie in the text one after the other. Between them lies
nothing but blanks and whole comments, so that gaps and lexemes together are the text.

* `skippable_trivia`: what is skipped holds no token.
* `scanFrom_covers`: a scan covers the text from its start.
* `drain_partitions`: a stream with a collector delivers such tokens, and then it ends.
-/

namespace ArcLang

/-! ## Gaps -/

/-- Text without tokens that stands before the text `behind`: blanks, and comments, each of which
runs up to a line feed or to the end of all text. -/
inductive Skippable (behind : List Char) : List Char → Prop
  | nil : Skippable behind []
  | blank {c : Char} {gap : List Char} : isBlank c = true → Skippable behind gap →
      Skippable behind (c :: gap)
  | comment {body gap : List Char} : '\n' ∉ body → (∀ c ∈ (gap ++ behind).head?, c = '\n') →
      Skippable behind gap → Skippable behind ('/' :: '/' :: body ++ gap)

/-- What is left of a comment, with the text without tokens that follows it. -/
def SkippableFrom (inComment : Bool) (behind skipped : List Char) : Prop :=
  if inComment then
    ∃ body gap, skipped = body ++ gap ∧ '\n' ∉ body ∧
      (∀ c ∈ (gap ++ behind).head?, c = '\n') ∧ Skippable behind gap
  else Skippable behind skipped

/-- Only the end of the line lies between a comment and the text behind it. -/
theorem SkippableFrom.cons {c : Char} {behind skipped : List Char}
    (h : SkippableFrom (c != '\n') behind skipped) : SkippableFrom true behind (c :: skipped) := by
  by_cases hc : c = '\n'
  · subst hc
    have hgap : Skippable behind skipped := h
    exact ⟨[], '\n' :: skipped, rfl, List.not_mem_nil,
      fun d hd => (Option.some.inj hd).symm, .blank rfl hgap⟩
  · rw [bne_iff_ne.2 hc] at h
    obtain ⟨body, gap, rfl, hbody, hhead, hgap⟩ := h
    refine ⟨c :: body, gap, rfl, ?_, hhead, hgap⟩
    rw [List.mem_cons, not_or]
    exact ⟨Ne.symm hc, hbody⟩

/-- **What is skipped holds no token.** -/
theorem skippable_trivia (inComment : Bool) (text : List Char) :
    SkippableFrom inComment (trivia inComment text).2 (trivia inComment text).1 := by
  fun_induction trivia inComment text with
  | case1 inComment =>
    cases inComment with
    | false => exact .nil
    | true => exact ⟨[], [], rfl, List.not_mem_nil, by rintro _ ⟨⟩, .nil⟩
  | case2 c r skipped rest hrec ih =>
    rw [hrec] at ih
    exact ih.cons
  | case3 inComment c r hout hblank skipped rest hrec ih =>
    rw [hrec] at ih
    rw [Bool.not_eq_true] at hout
    subst hout
    exact .blank hblank ih
  | case4 inComment c r hout hblank hslash skipped rest hrec ih =>
    have happend := trivia_append true r
    rw [hrec] at ih happend
    rw [Bool.not_eq_true] at hout
    subst hout
    rw [Bool.and_eq_true, decide_eq_true_eq, decide_eq_true_eq] at hslash
    obtain ⟨rfl, hhead⟩ := hslash
    obtain ⟨body, gap, rfl, hbody, hend, hgap⟩ := ih
    -- the second slash belongs to the comment, as no line feed stands there
    cases body with
    | nil =>
      rw [← happend] at hhead
      exact absurd (hend '/' hhead) (by decide)
    | cons d body =>
      rw [← happend] at hhead
      cases hhead
      rw [List.mem_cons, not_or] at hbody
      exact .comment hbody.2 hend hgap
  | case5 inComment c r hout =>
    rw [Bool.not_eq_true] at hout
    subst hout
    exact .nil

/-! ## Covers -/

/-- The tokens cover a text that starts at an offset: a gap, a lexeme, and so on, up to a last gap
and the end token. -/
inductive Covers : Nat → List Char → List Token → Prop
  | last {o stop : Nat} {gap : List Char} {e : Token} : Skippable [] gap → e.isEnd = true →
      e.lexeme = "" → stop = o + gap.length → e.span.start.offset = stop →
      e.span.stop.offset = stop → Covers o gap [e]
  | next {o start stop : Nat} {gap rest : List Char} {t : Token} {ts : List Token} :
      Skippable (t.lexeme.toList ++ rest) gap → t.isEnd = false → t.lexeme.toList ≠ [] →
      start = o + gap.length → stop = start + t.lexeme.toList.length →
      t.span.start.offset = start → t.span.stop.offset = stop → Covers stop rest ts →
      Covers o (gap ++ (t.lexeme.toList ++ rest)) (t :: ts)

theorem Scan.shown_ofPiece (source : Source) (p : Position) (piece : Piece) :
    (ofPiece source p piece).shown.lexeme = String.ofList piece.text ∧
      (ofPiece source p piece).shown.span =
        ⟨p.inFile source.file, (p.after piece.text).inFile source.file⟩ := by
  unfold ofPiece
  dsimp only
  split <;> exact ⟨rfl, rfl⟩

/-- **A scan covers the text from its start.** -/
theorem scanFrom_covers (source : Source) (p : Position) (text : List Char) :
    Covers p.offset text (Scan.tokens (scanFrom source p text)) := by
  fun_induction scanFrom source p text with
  | case1 p text start h =>
    have hgap : Skippable (trivia false text).2 (trivia false text).1 := skippable_trivia false text
    have happend := trivia_append false text
    rw [h] at hgap
    rw [h, List.append_nil] at happend
    rw [← happend]
    exact .last hgap rfl rfl (Position.offset_after p _) rfl rfl
  | case2 p text start c r h piece ih =>
    have hgap : Skippable (trivia false text).2 (trivia false text).1 := skippable_trivia false text
    have happend := trivia_append false text
    have hpiece : piece.text ++ piece.rest = c :: r := Piece.text_append_rest c r
    obtain ⟨hlexeme, hspan⟩ := Scan.shown_ofPiece source start piece
    have hchars := congrArg String.toList hlexeme
    rw [String.toList_ofList] at hchars
    rw [h, ← hpiece, ← hchars] at hgap happend
    rw [← happend]
    refine .next hgap (Scan.isSpelled_ofPiece source start c r).isEnd_shown ?_
      (Position.offset_after p _) (Position.offset_after start _) (by rw [hspan]; rfl) ?_ ?_
    · rw [hchars]
      exact Piece.text_ne_nil c r
    · rw [hspan, hchars]; rfl
    · rw [hchars]; exact ih

/-! ## Slices -/

/-- The part of a text between two offsets. -/
def slice (text : List Char) (start stop : Int) : List Char :=
  (text.take stop.toNat).drop start.toNat

theorem slice_append (before w rest : List Char) (stop : Nat)
    (h : stop = before.length + w.length) :
    slice (before ++ (w ++ rest)) before.length stop = w := by
  subst h
  unfold slice
  rw [← List.append_assoc, Int.toNat_natCast, Int.toNat_natCast, ← List.length_append,
    List.take_left, List.drop_left]

/-- Every token with the offset at which the gap before it starts. -/
def gapStarts (o : Int) (ts : List Token) : List (Int × Token) :=
  (o :: ts.map fun t => t.span.stop.offset).zip ts

theorem gapStarts_cons (o : Int) (t : Token) (ts : List Token) :
    gapStarts o (t :: ts) = (o, t) :: gapStarts t.span.stop.offset ts := rfl

namespace Covers

variable {o : Nat} {text : List Char} {ts : List Token}

/-- A gap and the token behind it stand in the text as their offsets say. -/
def Stands (text : List Char) (o : Int) (t : Token) : Prop :=
  Skippable (text.drop t.span.start.offset.toNat) (slice text o t.span.start.offset) ∧
    t.lexeme.toList = slice text t.span.start.offset t.span.stop.offset

/-- A token is as long as its lexeme. -/
theorem width (h : Covers o text ts) :
    ∀ t ∈ ts, t.span.stop.offset = t.span.start.offset + t.lexeme.toList.length := by
  induction h with
  | last hgap hend hlexeme hlength hstart hstop =>
    refine List.forall_mem_singleton.2 ?_
    rw [hstart, hstop, hlexeme]
    simp
  | next hgap hend hne hstart hstop hplace hplace' _ ih =>
    refine List.forall_mem_cons.2 ⟨?_, ih⟩
    omega

theorem stands (h : Covers o text ts) (before : List Char) (ho : o = before.length) :
    ∀ c ∈ gapStarts o ts, Stands (before ++ text) c.1 c.2 := by
  induction h generalizing before with
  | @last o stop gap e hgap hend hlexeme hlength hstart hstop =>
    subst ho
    rw [gapStarts_cons, List.forall_mem_cons]
    refine ⟨?_, List.forall_mem_nil _⟩
    have hslice := slice_append before gap [] stop hlength
    rw [List.append_nil] at hslice
    have hdrop : (before ++ gap).drop stop = [] := by
      rw [hlength, ← List.length_append, List.drop_length]
    unfold Stands
    rw [hstart, hstop, hslice, Int.toNat_natCast, hdrop, hlexeme]
    refine ⟨hgap, ?_⟩
    unfold slice
    rw [Int.toNat_natCast, List.drop_take, Nat.sub_self, List.take_zero]
    rfl
  | @next o start stop gap rest t ts hgap hend hne hlength hlong hstart hstop hrest ih =>
    subst ho
    rw [gapStarts_cons, List.forall_mem_cons]
    constructor
    · have hslice := slice_append before gap (t.lexeme.toList ++ rest) start hlength
      rw [← List.length_append] at hlength
      have hword := slice_append (before ++ gap) t.lexeme.toList rest stop (hlength ▸ hlong)
      have hdrop : (before ++ (gap ++ (t.lexeme.toList ++ rest))).drop start =
          t.lexeme.toList ++ rest := by
        rw [hlength, ← List.append_assoc, List.drop_left]
      rw [← hlength, List.append_assoc] at hword
      unfold Stands
      rw [hstart, hstop, hslice, hword, Int.toNat_natCast, hdrop]
      exact ⟨hgap, rfl⟩
    · have := ih (before ++ gap ++ t.lexeme.toList)
        (by rw [hlong, hlength, List.length_append, List.length_append])
      rw [hstop]
      simpa only [List.append_assoc] using this

/-- Gaps and lexemes together are the text. -/
theorem flatMap_gapStarts (h : Covers o text ts) (before : List Char) (ho : o = before.length) :
    (gapStarts o ts).flatMap (fun c =>
      slice (before ++ text) c.1 c.2.span.start.offset ++ c.2.lexeme.toList) = text := by
  induction h generalizing before with
  | @last o stop gap e hgap hend hlexeme hlength hstart hstop =>
    subst ho
    have hslice := slice_append before gap [] stop hlength
    rw [List.append_nil] at hslice
    show _ ++ e.lexeme.toList ++ [] = gap
    rw [hstart, hslice, hlexeme]
    exact (List.append_nil _).trans (List.append_nil _)
  | @next o start stop gap rest t ts hgap hend hne hlength hlong hstart hstop hrest ih =>
    subst ho
    have hslice := slice_append before gap (t.lexeme.toList ++ rest) start hlength
    have htail := ih (before ++ gap ++ t.lexeme.toList)
      (by rw [hlong, hlength, List.length_append, List.length_append])
    simp only [List.append_assoc] at htail
    rw [gapStarts_cons, List.flatMap_cons, hstart, hslice, hstop, htail, List.append_assoc]

/-- No token starts before the text does, and every token ends where the next one starts, or
earlier. -/
theorem ordered (h : Covers o text ts) : (∀ t ∈ ts, (o : Int) ≤ t.span.start.offset) ∧
    ts.Pairwise fun a b => a.span.start.offset < a.span.stop.offset ∧
      a.span.stop.offset ≤ b.span.start.offset := by
  induction h with
  | @last o stop gap e hgap hend hlexeme hlength hstart hstop =>
    refine ⟨List.forall_mem_singleton.2 ?_, List.pairwise_singleton _ _⟩
    rw [hstart, hlength]
    omega
  | @next o start stop gap rest t ts hgap hend hne hlength hlong hstart hstop hrest ih =>
    have hpos := List.length_pos_iff.2 hne
    refine ⟨List.forall_mem_cons.2 ⟨by omega, fun u hu => ?_⟩, ih.2.cons fun u hu => ?_⟩
    · have := ih.1 u hu
      omega
    · have := ih.1 u hu
      omega

/-- The last token is the end token at the end of the text, and the others are not empty. -/
theorem exists_last (h : Covers o text ts) : ∃ proper e, ts = proper ++ [e] ∧ e.isEnd = true ∧
    e.lexeme = "" ∧ e.span.start.offset = ((o + text.length : Nat) : Int) ∧
      e.span.stop.offset = ((o + text.length : Nat) : Int) ∧
        ∀ t ∈ proper, t.isEnd = false ∧ t.lexeme ≠ "" := by
  induction h with
  | @last o stop gap e hgap hend hlexeme hlength hstart hstop =>
    subst hlength
    exact ⟨[], e, rfl, hend, hlexeme, hstart, hstop, List.forall_mem_nil _⟩
  | @next o start stop gap rest t ts hgap hend hne hlength hlong hstart hstop hrest ih =>
    obtain ⟨proper, e, hts, hisEnd, hlexeme, hestart, hestop, hproper⟩ := ih
    have hsum : stop + rest.length = o + (gap ++ (t.lexeme.toList ++ rest)).length := by
      rw [List.length_append, List.length_append]
      omega
    rw [hsum] at hestart hestop
    refine ⟨t :: proper, e, congrArg (t :: ·) hts, hisEnd, hlexeme, hestart, hestop,
      List.forall_mem_cons.2 ⟨⟨hend, fun hempty => hne ?_⟩, hproper⟩⟩
    rw [hempty]
    rfl

end Covers

/-! ## The partition of a text -/

/-- The tokens `ts` and then the end token `e` divide the text up: they stand in their order, no two
have a character in common, and what lies before and between them is blanks and comments. -/
structure Partitions (text : List Char) (ts : List Token) (e : Token) : Prop where
  /-- Only the last token is the end token, and it stands at the end of the text. -/
  isEnd : e.isEnd = true ∧ e.lexeme = "" ∧ e.span.start.offset = text.length ∧
    e.span.stop.offset = text.length
  proper : ∀ t ∈ ts, t.isEnd = false ∧ t.lexeme ≠ ""
  /-- Each lexeme is the text between the offsets of its token. -/
  sliced : ∀ t ∈ ts, t.lexeme.toList = slice text t.span.start.offset t.span.stop.offset
  ordered : (ts ++ [e]).Pairwise fun a b =>
    a.span.start.offset < a.span.stop.offset ∧ a.span.stop.offset ≤ b.span.start.offset
  /-- The gap before each token holds blanks and whole comments. -/
  gaps : ∀ c ∈ gapStarts 0 (ts ++ [e]),
    Skippable (text.drop c.2.span.start.offset.toNat) (slice text c.1 c.2.span.start.offset)
  /-- Gaps and lexemes together are the text. -/
  whole : (gapStarts 0 (ts ++ [e])).flatMap
    (fun c => slice text c.1 c.2.span.start.offset ++ c.2.lexeme.toList) = text

theorem mem_gapStarts {t : Token} {ts : List Token} (h : t ∈ ts) (o : Int) :
    ∃ o', (o', t) ∈ gapStarts o ts := by
  induction ts generalizing o with
  | nil => cases h
  | cons u ts ih =>
    rw [gapStarts_cons]
    rcases List.mem_cons.1 h with rfl | h
    · exact ⟨o, List.mem_cons_self⟩
    · obtain ⟨o', ho'⟩ := ih h u.span.stop.offset
      exact ⟨o', List.mem_cons_of_mem _ ho'⟩

/-- **The tokens of a scan divide its text up.** -/
theorem scan_partitions (source : Source) (text : String) :
    ∃ ts e, Scan.tokens (scan source text) = ts ++ [e] ∧ Partitions text.toList ts e := by
  have hcovers : Covers 0 text.toList (Scan.tokens (scan source text)) :=
    scanFrom_covers source .start text.toList
  obtain ⟨ts, e, hts, hend, hlexeme, hstart, hstop, hproper⟩ := hcovers.exists_last
  rw [Nat.zero_add] at hstart hstop
  rw [hts] at hcovers
  have hstands := hcovers.stands [] rfl
  refine ⟨ts, e, hts, ⟨hend, hlexeme, hstart, hstop⟩, hproper, fun t ht => ?_, hcovers.ordered.2,
    fun c hc => (hstands c hc).1, hcovers.flatMap_gapStarts [] rfl⟩
  obtain ⟨o, ho⟩ := mem_gapStarts (List.mem_append_left [e] ht) 0
  exact (hstands _ ho).2

namespace Session

variable {s : Session} {stream : Nat}

/-- A stream with a collector that has something before it gives a token and moves on; a fault goes
to the collector. -/
theorem next_eq {x : Scan} {scans : List Scan} {errors : Collector}
    (hstream : s.streams[stream]? = some (x :: scans)) (hshared : s.errors = some errors) :
    ∃ s', s.next stream = (.token x.shown, s') ∧ s'.streams[stream]? = some scans ∧
      s'.errors = some (errors.addAll x.fault?.toList) := by
  obtain ⟨hlt, -⟩ := List.getElem?_eq_some_iff.1 hstream
  have hset : (s.streams.set stream scans)[stream]? = some scans := List.getElem?_set_self hlt
  unfold next
  rw [hstream, hshared]
  cases x with
  | token t => exact ⟨_, rfl, hset, rfl⟩
  | fault why t => exact ⟨_, rfl, hset, rfl⟩

/-- **A stream with a collector delivers the tokens that it has before it,** and then it ends; the
collector is given their faults. -/
theorem drainFor_records {scans : List Scan} {rounds : Nat} {errors : Collector}
    (hstream : s.streams[stream]? = some scans) (hshared : s.errors = some errors)
    (hrounds : scans.length < rounds) :
    (drainFor stream rounds s).1 = (Scan.tokens scans).map .token ++ [.ended] ∧
      (drainFor stream rounds s).2.errors = some (errors.addAll (Scan.faults scans)) := by
  induction scans generalizing rounds s errors with
  | nil =>
    obtain ⟨rounds, rfl⟩ := Nat.exists_eq_add_of_lt hrounds
    have hnext : s.next stream = (.ended, s) := by
      unfold next
      rw [hstream]
    rw [drainFor, hnext]
    exact ⟨rfl, hshared⟩
  | cons x scans ih =>
    obtain ⟨rounds, rfl⟩ := Nat.exists_eq_add_of_lt hrounds
    obtain ⟨s', hnext, hstream', hshared'⟩ := next_eq hstream hshared
    obtain ⟨hdelivered, hrecorded⟩ :=
      ih hstream' hshared' (show scans.length < (x :: scans).length + rounds by
        rw [List.length_cons]; omega)
    rw [drainFor, hnext]
    constructor
    · show _ :: (drainFor stream _ s').1 = _
      rw [hdelivered]
      rfl
    · show (drainFor stream _ s').2.errors = _
      rw [hrecorded]
      cases x <;> rfl

theorem drainFor_eq {scans : List Scan} {rounds : Nat} (hstream : s.streams[stream]? = some scans)
    (hshared : s.errors.isSome = true) (hrounds : scans.length < rounds) :
    (drainFor stream rounds s).1 = (Scan.tokens scans).map .token ++ [.ended] := by
  obtain ⟨errors, herrors⟩ := Option.isSome_iff_exists.1 hshared
  exact (drainFor_records hstream herrors hrounds).1

end Session

/-- **A stream on a source with a collector delivers tokens that divide the text up,** error tokens
included, and then it ends. -/
theorem drain_partitions (source : Source) (text : String) (streams : List (List Scan))
    (errors : Collector) :
    let opened := (Session.mk (scan source text) streams (some errors)).openStream
    ∃ ts e, (opened.2.drain opened.1).1 = (ts ++ [e]).map .token ++ [.ended] ∧
      Partitions text.toList ts e := by
  intro opened
  obtain ⟨ts, e, hts, hpartitions⟩ := scan_partitions source text
  have hstream : opened.2.streams[opened.1]? = some (scan source text) :=
    List.getElem?_concat_length
  refine ⟨ts, e, ?_, hpartitions⟩
  rw [← hts]
  exact Session.drainFor_eq hstream rfl (Nat.lt_succ_self _)

end ArcLang
