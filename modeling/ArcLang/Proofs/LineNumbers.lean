import Mathlib.Data.List.DropRight
import ArcLang.Proofs.Shifting
import ArcLang.Proofs.Totality
import ArcLang.Proofs.Upholding

/-!
# Lines and columns

Line and column are counted along the text. What has been counted is what the text before the place
says: its line feeds, and how far it is from the last of them. The line that a diagnostic shows is
the one around its place, and its caret is within that line or right behind it. The scanner cuts
that line out of the text and the parser looks it up by its number; both come to the same.

* `Location.IsRight`: line and column of a place fit its offset.
* `Position.after_start`: what is counted along a text.
* `Lines.getElem?_split`: a line by its number is the line around a place.
* `Source.line?_after`: a line by its number is the line by its start.
* `parse_places_right`: tokens and diagnostics of every text.
-/

namespace ArcLang

/-! ## Places -/

/-- What stands behind the last line feed of a text. -/
def lastLine (text : List Char) : List Char := text.rtakeWhile (· != '\n')

/-- The offset at which the line of an offset starts. -/
def lineStart (text : List Char) (offset : Nat) : Nat :=
  ((text.take offset).rdropWhile (· != '\n')).length

/-- The line around a place: back to the last line feed, and on to the next one. -/
def lineAround (front back : List Char) : List Char :=
  lastLine front ++ back.takeWhile (· != '\n')

/-- The offset is one of the text, and line and column fit it. -/
structure Location.IsRight (text : List Char) (l : Location) : Prop where
  within : 0 ≤ l.offset ∧ l.offset ≤ text.length
  line : l.line = 1 + (text.take l.offset.toNat).count '\n'
  column : l.column = l.offset - lineStart text l.offset.toNat + 1

/-- The place is reached by going along the text from its start. -/
def Location.IsReached (text : List Char) (file : String) (l : Location) : Prop :=
  ∃ front back, text = front ++ back ∧ l = (Position.start.after front).inFile file

theorem length_lastLine (text : List Char) :
    (text.rdropWhile (· != '\n')).length + (lastLine text).length = text.length := by
  have happend : text.rdropWhile (· != '\n') ++ lastLine text = text :=
    List.rdropWhile_append_rtakeWhile
  have hlength := congrArg List.length happend
  rwa [List.length_append] at hlength

/-- **What is counted along a text:** its line feeds, the characters behind the last of them, and
those before. -/
theorem Position.after_start (text : List Char) : Position.start.after text =
    ⟨1 + text.count '\n', (lastLine text).length + 1, text.length,
      (text.rdropWhile (· != '\n')).length⟩ := by
  induction text using List.reverseRecOn with
  | nil => rfl
  | append_singleton text c ih =>
    rw [after_append, ih, after_cons, after_nil, next]
    by_cases hc : c = '\n'
    · have hlast : lastLine (text ++ [c]) = [] :=
        List.rtakeWhile_concat_neg _ _ _ (by rw [hc]; decide)
      have hdrop : (text ++ [c]).rdropWhile (· != '\n') = text ++ [c] :=
        List.rdropWhile_concat_neg _ _ _ (by rw [hc]; decide)
      rw [if_pos hc, hlast, hdrop, hc]
      simp [Nat.add_assoc]
    · have hlast : lastLine (text ++ [c]) = lastLine text ++ [c] :=
        List.rtakeWhile_concat_pos _ _ _ (bne_iff_ne.2 hc)
      have hdrop : (text ++ [c]).rdropWhile (· != '\n') = text.rdropWhile (· != '\n') :=
        List.rdropWhile_concat_pos _ _ _ (bne_iff_ne.2 hc)
      rw [if_neg hc, hlast, hdrop]
      simp [hc]

/-- The line does not start anew where there is no line feed. -/
theorem Position.lineStart_after {text : List Char} (h : '\n' ∉ text) (p : Position) :
    (p.after text).lineStart = p.lineStart := by
  induction text generalizing p with
  | nil => rfl
  | cons c r ih =>
    rw [List.mem_cons, not_or] at h
    rw [after_cons, ih h.2, next, if_neg (Ne.symm h.1)]

theorem Location.IsReached.isRight {text : List Char} {file : String} {l : Location}
    (h : l.IsReached text file) : l.IsRight text := by
  obtain ⟨front, back, rfl, rfl⟩ := h
  have htake : (front ++ back).take ((Position.start.after front).inFile file).offset.toNat =
      front := by
    rw [Position.after_start]
    exact List.take_left
  refine ⟨⟨Int.natCast_nonneg _, ?_⟩, ?_, ?_⟩
  · rw [Position.after_start, List.length_append]
    show (front.length : Int) ≤ ((front.length + back.length : Nat) : Int)
    omega
  · rw [htake, Position.after_start]
    exact Int.natCast_add 1 _
  · have hlength := length_lastLine front
    rw [lineStart, htake, Position.after_start]
    show (((lastLine front).length + 1 : Nat) : Int) = (front.length : Int) - _ + 1
    omega

/-! ## Lines -/

/-- The first line of a text ends at its first line feed. -/
theorem Lines.head?_split (text : List Char) :
    (split text).head? = some (text.takeWhile (· != '\n')) := by
  induction text with
  | nil => rfl
  | cons c r ih =>
    unfold split
    split
    next h => exact absurd h (split_ne_nil r)
    next line more h =>
      rw [h] at ih
      have hline : line = r.takeWhile (· != '\n') := Option.some.inj ih
      by_cases hc : c = '\n'
      · rw [if_pos hc, List.takeWhile_cons_of_neg (by simp [hc])]
        rfl
      · rw [if_neg hc, List.takeWhile_cons_of_pos (by simp [hc]), ← hline]
        rfl

/-- **A line by its number is the line around a place,** if there are so many line feeds before. -/
theorem Lines.getElem?_split (front back : List Char) :
    (split (front ++ back))[front.count '\n']? = some (lineAround front back) := by
  have hfirst (text : List Char) (h : '\n' ∉ text) (back : List Char) :
      (split (text ++ back))[0]? = some (text ++ back.takeWhile (· != '\n')) := by
    rw [← List.head?_eq_getElem?, head?_split, List.takeWhile_append_of_pos]
    intro c hc
    refine bne_iff_ne.2 ?_
    rintro rfl
    exact h hc
  have hlast : '\n' ∉ lastLine front := fun hmem =>
    absurd (List.mem_rtakeWhile_imp hmem) (by decide)
  have hfront := List.rdropWhile_append_rtakeWhile (p := (· != '\n')) (l := front)
  rcases List.eq_nil_or_concat' (front.rdropWhile (· != '\n')) with hnone | ⟨before, c, hsome⟩
  · -- there is no line feed before the place
    have hall : lastLine front = front := by
      rw [hnone, List.nil_append] at hfront
      exact hfront
    rw [hall] at hlast
    rw [lineAround, hall, List.count_eq_zero_of_not_mem hlast]
    exact hfirst front hlast back
  · have hfeed : c = '\n' := by
      have hne : front.rdropWhile (· != '\n') ≠ [] := by rw [hsome]; simp
      have hstop := List.rdropWhile_last_not _ _ hne
      simpa [hsome] using hstop
    have hwhole : front = before ++ '\n' :: lastLine front := by
      rw [hsome, hfeed, List.append_assoc] at hfront
      exact hfront.symm
    have hcount : front.count '\n' = (split before).length := by
      conv_lhs => rw [hwhole]
      rw [length_split, List.count_append, List.count_cons_self,
        List.count_eq_zero_of_not_mem hlast]
    rw [hcount, hwhole, List.append_assoc, List.cons_append, split_append,
      List.getElem?_append_right le_rfl, Nat.sub_self, ← hwhole]
    exact hfirst _ hlast back

/-- **The line that is cut out of the text is the one around the place.** -/
theorem Source.currentLine_after {file text : String} {front back : List Char}
    (htext : text.toList = front ++ back) :
    (Source.ofText file text).currentLine (Position.start.after front).lineStart =
      String.ofList (lineAround front back) := by
  have hsplit : text.toList = front.rdropWhile (· != '\n') ++ (lastLine front ++ back) := by
    rw [htext, lastLine, ← List.append_assoc, List.rdropWhile_append_rtakeWhile]
  have hdrop : text.toList.drop (front.rdropWhile (· != '\n')).length = lastLine front ++ back := by
    rw [hsplit, List.drop_left]
  have hlast : ∀ c ∈ lastLine front, (c != '\n') = true := fun c hc =>
    List.mem_rtakeWhile_imp (p := (· != '\n')) hc
  rw [Position.after_start]
  show String.ofList ((text.toList.drop _).takeWhile _) = _
  rw [hdrop, List.takeWhile_append_of_pos hlast, lineAround]

/-- **The scanner and the parser show the same line:** the one that is cut out of the text around a
place is the one that the place names. -/
theorem Source.line?_after {file text : String} {front back : List Char}
    (htext : text.toList = front ++ back) :
    (Source.ofText file text).line? ((Position.start.after front).inFile file).line =
      some ((Source.ofText file text).currentLine (Position.start.after front).lineStart) := by
  rw [currentLine_after htext, Position.after_start]
  show (if (0 : Int) < ((1 + front.count '\n' : Nat) : Int) then
    ((Lines.split text.toList).map String.ofList)[1 + front.count '\n' - 1]? else none) = _
  rw [if_pos (by omega), Nat.add_sub_cancel_left, List.getElem?_map, htext, Lines.getElem?_split]
  rfl

/-! ## Tokens and diagnostics -/

/-- The diagnostic is at a place that is reached along the text, and shows the line of it. -/
def Diagnostic.IsPlaced (text file : String) (d : Diagnostic) : Prop :=
  ∃ l c, d = .ofPlace (.ofText file text) l c ∧ l.IsReached text.toList file

/-- Both ends of the token are reached along the text. -/
def Token.IsPlaced (text file : String) (t : Token) : Prop :=
  t.span.start.IsReached text.toList file ∧ t.span.stop.IsReached text.toList file

/-- What is shown is placed, and so is its fault. -/
def Scan.IsPlaced (text file : String) (x : Scan) : Prop :=
  x.shown.IsPlaced text file ∧ ∀ d ∈ x.fault?, d.IsPlaced text file

/-- The diagnostic shows the line around its place, with the caret in it or right behind it. -/
def Diagnostic.IsShown (text : List Char) (d : Diagnostic) : Prop :=
  ∃ l line, d.place = some l ∧ d.line = some (String.ofList line) ∧ l.IsRight text ∧
    (Lines.split text)[(l.line - 1).toNat]? = some line ∧
    (∀ front back, text = front ++ back → l.line = 1 + front.count '\n' →
      lineAround front back = line) ∧ 1 ≤ l.column ∧ l.column ≤ line.length + 1

/-- **What is at a place reached along the text shows the line around it.** -/
theorem Diagnostic.IsPlaced.isShown {text file : String} {d : Diagnostic}
    (h : d.IsPlaced text file) : d.IsShown text.toList := by
  obtain ⟨l, c, rfl, hreached⟩ := h
  have hright := hreached.isRight
  obtain ⟨front, back, htext, rfl⟩ := hreached
  have hline : ((Position.start.after front).inFile file).line = 1 + front.count '\n' := by
    rw [Position.after_start]
    exact Int.natCast_add 1 _
  have hcolumn : ((Position.start.after front).inFile file).column =
      (lastLine front).length + 1 := by
    rw [Position.after_start]
    rfl
  generalize (Position.start.after front).inFile file = l at hright hline hcolumn
  have hnumber : (l.line - 1).toNat = front.count '\n' := by omega
  have hsplit : (Lines.split text.toList)[(l.line - 1).toNat]? = some (lineAround front back) := by
    rw [hnumber, htext]
    exact Lines.getElem?_split front back
  refine ⟨l, lineAround front back, rfl, ?_, hright, hsplit, fun front' back' htext' hline' => ?_,
    by omega, ?_⟩
  · show (Source.ofText file text).line? l.line = _
    have hindex : l.line.toNat - 1 = (l.line - 1).toNat := by omega
    rw [Source.line?, if_pos (by omega), hindex]
    show ((Lines.split text.toList).map String.ofList)[(l.line - 1).toNat]? = _
    rw [List.getElem?_map, hsplit]
    rfl
  · have hsame : (l.line - 1).toNat = front'.count '\n' := by omega
    rw [hsame, htext', Lines.getElem?_split front' back'] at hsplit
    exact Option.some.inj hsplit
  · rw [hcolumn, lineAround, List.length_append]
    omega

/-- What could be read of a broken piece of text is the front of it. -/
theorem Reading.before_prefix {c : Char} {r : List Char} {why : Refusal}
    (h : (front c r).outcome = .error why) : why.before <+: c :: r := by
  have hliteral {kind : Kind} {name : String} {least : Nat}
      (h : (literal c kind name least r).outcome = .error why) : why.before <+: c :: r := by
    unfold literal brokenLiteral at h
    dsimp only at h
    have hletters : c :: r.takeWhile Char.isAlpha <+: c :: r :=
      List.cons_prefix_cons.2 ⟨rfl, List.takeWhile_prefix _⟩
    repeat' split at h
    all_goals cases h
    all_goals first | exact List.nil_prefix | exact hletters
  unfold front at h
  split at h
  · cases h
  split at h
  · cases h
  split at h
  · exact hliteral h
  split at h
  · exact hliteral h
  unfold symbol at h
  split at h
  · cases h
  · cases h
    exact List.nil_prefix

/-- No line feed stands between the start of a broken piece of text and where its fault is, or comes
to light. -/
theorem Reading.feed_notMem {c : Char} {r : List Char} {why : Refusal}
    (h : (front c r).outcome = .error why) : '\n' ∉ why.before ∧ '\n' ∉ why.read := by
  have hliteral {quote : Char} {kind : Kind} {name : String} {least : Nat}
      (hquote : quote ≠ '\n') (h : (literal quote kind name least r).outcome = .error why) :
      '\n' ∉ why.before ∧ '\n' ∉ why.read := by
    have hletters : '\n' ∉ quote :: r.takeWhile Char.isAlpha := fun hmem =>
      (List.mem_cons.1 hmem).elim (fun heq => hquote heq.symm) fun hmem =>
        absurd (List.mem_takeWhile_imp hmem) (by decide)
    unfold literal brokenLiteral at h
    dsimp only at h
    repeat' split at h
    all_goals cases h
    all_goals first | exact ⟨List.not_mem_nil, hletters⟩ | exact ⟨hletters, hletters⟩
  unfold front at h
  split at h
  · cases h
  split at h
  · cases h
  split at h
  next hc => exact hliteral (by rw [hc]; decide) h
  split at h
  next hc => exact hliteral (by rw [hc]; decide) h
  unfold symbol at h
  split at h
  · cases h
  · cases h
    exact ⟨List.not_mem_nil, List.not_mem_nil⟩

/-- Whatever a scan shows is placed in the text. -/
theorem isPlaced_of_mem_scanFrom (text file : String) (front rest : List Char) (p : Position)
    (hp : p = Position.start.after front) (htext : text.toList = front ++ rest) :
    ∀ x ∈ scanFrom (.ofText file text) p rest, x.IsPlaced text file := by
  fun_induction scanFrom (.ofText file text) p rest generalizing front with
  | case1 p rest start h =>
    have hwhole := trivia_append false rest
    rw [h, List.append_nil] at hwhole
    have hstart : (start.inFile file).IsReached text.toList file :=
      ⟨front ++ (trivia false rest).1, [], by rw [hwhole, List.append_nil, htext],
        by rw [Position.after_append, ← hp]⟩
    exact List.forall_mem_singleton.2 ⟨⟨hstart, hstart⟩, by rintro _ ⟨⟩⟩
  | case2 p rest start c r h piece ih =>
    have hwhole := trivia_append false rest
    rw [h] at hwhole
    have hpiece : piece.text ++ piece.rest = c :: r := Piece.text_append_rest c r
    -- a place inside what is left behind the trivia
    have hinside (read behind : List Char) (hread : read ++ behind = c :: r) :
        text.toList = front ++ (trivia false rest).1 ++ read ++ behind ∧
          start.after read = Position.start.after (front ++ (trivia false rest).1 ++ read) := by
      refine ⟨?_, ?_⟩
      · rw [List.append_assoc, hread, List.append_assoc, hwhole, htext]
      · rw [Position.after_append, Position.after_append, ← hp]
    have hreached (read behind : List Char) (hread : read ++ behind = c :: r) :
        ((start.after read).inFile file).IsReached text.toList file := by
      obtain ⟨hsplit, hafter⟩ := hinside read behind hread
      exact ⟨_, behind, hsplit, by rw [hafter]⟩
    refine List.forall_mem_cons.2 ⟨?_, ih (front ++ (trivia false rest).1 ++ piece.text) ?_ ?_⟩
    · have hspan := (Scan.shown_ofPiece (.ofText file text) start piece).2
      refine ⟨?_, fun d hd => ?_⟩
      · rw [Token.IsPlaced, hspan]
        exact ⟨hreached [] (c :: r) rfl, hreached piece.text piece.rest hpiece⟩
      · unfold Scan.ofPiece at hd
        dsimp only at hd
        cases hrefused : piece.outcome with
        | ok kind => rw [hrefused] at hd; cases hd
        | error why =>
          rw [hrefused] at hd
          cases hd
          obtain ⟨behind, hbefore⟩ := Reading.before_prefix hrefused
          obtain ⟨hsplit, hafter⟩ := hinside why.before behind hbefore
          obtain ⟨hfeed, hfeed'⟩ := Reading.feed_notMem hrefused
          have hline : (Source.ofText file text).line? _ = some _ := Source.line?_after hsplit
          rw [← hafter, Position.lineStart_after hfeed, ← Position.lineStart_after hfeed'] at hline
          exact ⟨_, why.cause, congrArg _ hline.symm, hreached why.before behind hbefore⟩
    · rw [Position.after_append, Position.after_append, ← hp]
    · rw [List.append_assoc, hpiece, List.append_assoc, hwhole, htext]

/-! ## Parses -/

/-- Everything that a state of a parse holds is placed in the text. -/
structure State.IsPlaced (text file : String) (s : State) : Prop where
  shared : s.faults = .shared
  pending : ∀ x ∈ s.pending, x.IsPlaced text file
  ahead : ∀ t, s.ahead = some t → t.IsPlaced text file
  previous : ∀ t, s.previous = some t → t.IsPlaced text file
  errors : ∀ d ∈ s.errors.errors, d.IsPlaced text file

theorem State.IsPlaced.add {text file : String} {s : State} (h : s.IsPlaced text file)
    {why : Diagnostic} (hwhy : why.IsPlaced text file) :
    ∀ d ∈ (s.errors.add why).errors, d.IsPlaced text file := by
  intro d hd
  rcases Collector.mem_of_mem_add hd with hd | rfl
  · exact h.errors d hd
  · exact hwhy

theorem State.IsPlaced.previousEnd {text file : String} {s : State} (h : s.IsPlaced text file) :
    (s.previousEnd file).IsReached text.toList file := by
  unfold State.previousEnd
  cases hprevious : s.previous with
  | none => exact ⟨[], text.toList, rfl, rfl⟩
  | some t => exact (h.previous t hprevious).2

section Texts

variable (text file : String) (o : Options)

/-- **Every step keeps to the text.** -/
theorem law_isPlaced : Parser.Law (settingOf text file o) (State.IsPlaced text file)
    (Token.IsPlaced text file) (fun e => ∀ d ∈ e.told, d.IsPlaced text file) where
  shared hs := hs.shared
  look {s s' t} hs hpeek := by
    cases Parser.looks_of_gives hs.shared hpeek with
    | again hahead => exact ⟨hs, hs.ahead t hahead⟩
    | beyond hnone hpending ht =>
      have hplaced : t.IsPlaced text file := by
        rw [ht]
        exact ⟨hs.previousEnd, hs.previousEnd⟩
      refine ⟨⟨hs.shared, hs.pending, ?_, hs.previous, hs.errors⟩, hplaced⟩
      rintro _ ⟨⟩
      exact hplaced
    | token hnone hpending =>
      have hall := hs.pending
      rw [hpending] at hall
      obtain ⟨hfirst, hrest⟩ := List.forall_mem_cons.1 hall
      refine ⟨⟨hs.shared, hrest, ?_, hs.previous, hs.errors⟩, hfirst.1⟩
      rintro _ ⟨⟩
      exact hfirst.1
    | fault hnone hpending =>
      have hall := hs.pending
      rw [hpending] at hall
      obtain ⟨hfirst, hrest⟩ := List.forall_mem_cons.1 hall
      refine ⟨⟨hs.shared, hrest, ?_, hs.previous, hs.add (hfirst.2 _ rfl)⟩, hfirst.1⟩
      rintro _ ⟨⟩
      exact hfirst.1
  take {s t} hs hahead hend := by
    refine ⟨hs.shared, hs.pending, by rintro _ ⟨⟩, ?_, hs.errors⟩
    rintro _ ⟨⟩
    exact hs.ahead t hahead
  note e hs := ⟨hs.shared, hs.pending, hs.ahead, hs.previous, hs.errors⟩
  fail {t c} hmet hsyntactic := by
    rintro _ ⟨⟩
    exact ⟨_, _, rfl, hmet.1⟩
  deep {t} hmet := by
    rintro _ ⟨⟩
    exact ⟨_, _, rfl, hmet.1⟩
  record {s why} hs hfair := by
    have hwhy : why.IsPlaced text file := hfair.elim (fun h => h why rfl) fun h => h why rfl
    exact ⟨hs.shared, hs.pending, hs.ahead, hs.previous, hs.add hwhy⟩

theorem isPlaced_of_mem_scansOf : ∀ x ∈ scansOf text file, x.IsPlaced text file :=
  isPlaced_of_mem_scanFrom text file [] text.toList .start rfl rfl

/-- **Places are right everywhere.** Both ends of every token of a text have the line and the column
that fit their offset; and so has every diagnostic of a parse, which shows the line around it, with
the caret in that line or right behind it. -/
theorem parse_places_right :
    (∀ t ∈ Scan.tokens (scansOf text file),
      t.span.start.IsRight text.toList ∧ t.span.stop.IsRight text.toList) ∧
    ∀ r, parse text file o = .ok r → ∀ d ∈ r.diagnostics, d.IsShown text.toList := by
  have hscans := isPlaced_of_mem_scansOf text file
  refine ⟨fun t ht => ?_, fun r h d hd => ?_⟩
  · obtain ⟨x, hx, rfl⟩ := List.mem_map.1 ht
    exact ⟨(hscans x hx).1.1.isRight, (hscans x hx).1.2.isRight⟩
  · obtain ⟨s, hrun, hdiagnostics⟩ := parseScans_of_parse h
    have hstart : (startOf text file o.maxErrors).IsPlaced text file :=
      ⟨rfl, hscans, by rintro _ ⟨⟩, by rintro _ ⟨⟩, List.forall_mem_nil _⟩
    have hend := Parser.program_upholds (law_isPlaced text file o) hstart
      (parseScans_eq_ok_iff.1 hrun)
    rw [hdiagnostics, s.errors.sorted_perm.mem_iff] at hd
    exact (hend.errors d hd).isShown

/-- A literal that is cut off by the end of its line, behind a carriage return. -/
theorem parse_places_right_of_cut : ∃ r, parse "a\r;\n \"b" "m.arc" {} = .ok r ∧
    r.diagnostics.map (·.place) = [some ⟨"m.arc", 2, 2, 5⟩] ∧
      ∀ d ∈ r.diagnostics, d.IsShown "a\r;\n \"b".toList := by
  have hrun : (parse "a\r;\n \"b" "m.arc" {}).toOption.map
      (fun r => r.diagnostics.map (·.place)) = some [some ⟨"m.arc", 2, 2, 5⟩] := by
    decide +kernel
  obtain ⟨r, hp, hplaces⟩ := exists_of_map_toOption hrun
  exact ⟨r, hp, hplaces, (parse_places_right _ _ _).2 r hp⟩

end Texts

end ArcLang
