import ArcLang.Proofs.Language
import ArcLang.Proofs.Moving
import ArcLang.Proofs.Seams

/-!
# A text behind other lines

A text that stands behind other lines scans as it does alone: its tokens and faults are the same, so
many lines and characters further on, and the lines that its diagnostics show are the same. A
scanner keeps nothing from one line to the next that would make a difference.

* `Location.shift`: a place so many lines and characters further on.
* `scanFrom_shift`: scanning is the same there.
* `Source.line?_behind`, `Source.line?_before`: the lines of two texts, one behind the other.
* `scan_behind`: the scans of two texts, one behind the other.
-/

namespace ArcLang

/-! ## Places -/

/-- The place so many lines and characters further on, in the same column. -/
def Location.shift (lines offset : Nat) (l : Location) : Location :=
  { l with line := l.line + lines, offset := l.offset + offset }

namespace Position

variable {lines offset : Nat}

/-- The position so many lines and characters further on, in the same column. -/
def shift (lines offset : Nat) (p : Position) : Position :=
  ⟨p.line + lines, p.column, p.offset + offset, p.lineStart + offset⟩

theorem inFile_shift (p : Position) (file : String) :
    (p.shift lines offset).inFile file = (p.inFile file).shift lines offset := by
  simp [inFile, shift, Location.shift]

theorem next_shift (p : Position) (c : Char) :
    (p.shift lines offset).next c = (p.next c).shift lines offset := by
  unfold next shift
  split
  · simp only [Nat.add_right_comm]
  · simp only [Nat.add_right_comm]

theorem after_shift (p : Position) (text : List Char) :
    (p.shift lines offset).after text = (p.after text).shift lines offset := by
  induction text generalizing p with
  | nil => rfl
  | cons c r ih => rw [after_cons, after_cons, next_shift, ih]

theorem line_after (p : Position) (text : List Char) :
    (p.after text).line = p.line + text.count '\n' := by
  induction text generalizing p with
  | nil => rfl
  | cons c r ih =>
    rw [after_cons, ih, List.count_cons]
    unfold next
    split
    next hc => simp [hc, Nat.add_comm, Nat.add_left_comm]
    next hc => simp [hc]

/-- Behind a line feed stands the first column again. -/
theorem after_feed (text : List Char) : start.after (text ++ ['\n']) =
    start.shift (text.count '\n' + 1) (text.length + 1) := by
  have hline := line_after start text
  have hoffset := offset_after start text
  have hzero : start.lineStart = start.offset := rfl
  rw [after_append, after_cons, after_nil, next, if_pos rfl, hline, hoffset]
  simp only [shift, Position.mk.injEq]
  refine ⟨by omega, rfl, by omega, by omega⟩

end Position

/-! ## Scans -/

/-- What is wrong with a piece of text is never that a delimiter is missing. -/
theorem Reading.cause_ne_unclosed {c : Char} {r : List Char} {why : Refusal}
    (h : (front c r).outcome = .error why) (expected delimiter : String) (l : Location) :
    why.cause ≠ .unclosed expected delimiter l := by
  have hliteral {quote : Char} {kind : Kind} {name : String} {least : Nat}
      (h : (literal quote kind name least r).outcome = .error why) :
      why.cause ≠ .unclosed expected delimiter l := by
    unfold literal brokenLiteral at h
    dsimp only at h
    split at h
    · cases h
      nofun
    split at h
    · split at h
      · cases h
      · cases h
        nofun
    split at h
    · cases h
      nofun
    · cases h
      nofun
  unfold front at h
  split at h
  · cases h
  split at h
  · cases h
  split at h
  · exact hliteral h
  split at h
  · exact hliteral h
  unfold symbol at h
  split at h
  · cases h
  · cases h
    nofun

variable {source source' : Source} {lines offset : Nat}

theorem Source.currentLine_shift
    (htext : ∀ n, source'.text.drop (n + offset) = source.text.drop n) (start : Nat) :
    source'.currentLine (start + offset) = source.currentLine start := by
  unfold currentLine
  rw [htext]

theorem Scan.ofPiece_shift (hfile : source'.file = source.file)
    (htext : ∀ n, source'.text.drop (n + offset) = source.text.drop n) (p : Position) (c : Char)
    (r : List Char) : (ofPiece source p (Piece.front c r)).Moves (Location.shift lines offset)
      (ofPiece source' (p.shift lines offset) (Piece.front c r)) := by
  unfold ofPiece
  dsimp only
  rw [hfile]
  simp only [Position.after_shift, Position.inFile_shift]
  cases h : (Piece.front c r).outcome with
  | ok kind => exact .token _
  | error why =>
    have hline := Source.currentLine_shift htext (p.after why.read).lineStart
    exact .fault _ ⟨rfl, congrArg some hline, .plain (Reading.cause_ne_unclosed h)⟩

/-- **Scanning is the same behind other lines.** -/
theorem scanFrom_shift (hfile : source'.file = source.file)
    (htext : ∀ n, source'.text.drop (n + offset) = source.text.drop n) (p : Position)
    (text : List Char) :
    List.Forall₂ (Scan.Moves (Location.shift lines offset)) (scanFrom source p text)
      (scanFrom source' (p.shift lines offset) text) := by
  induction hn : text.length using Nat.strongRecOn generalizing p text with
  | ind n ih =>
    cases h : trivia false text with
    | mk skipped rest =>
      cases rest with
      | nil =>
        rw [scanFrom_of_trivia_nil h, scanFrom_of_trivia_nil h, Position.after_shift,
          Position.inFile_shift, hfile]
        exact .cons (.token _) .nil
      | cons c r =>
        rw [scanFrom_of_trivia h, scanFrom_of_trivia h]
        simp only [Position.after_shift]
        refine .cons (Scan.ofPiece_shift hfile htext _ c r) (ih _ ?_ _ _ rfl)
        have hwhole := congrArg List.length (trivia_append false text)
        have hshorter := Piece.length_rest_le c r
        rw [h, List.length_append, List.length_cons] at hwhole
        omega

/-- **Only diagnostics show lines:** without faults the lines of the source do not matter. -/
theorem scanFrom_of_faultless (hfile : source'.file = source.file) {p : Position}
    {text : List Char} (hfaults : Scan.faults (scanFrom source p text) = []) :
    scanFrom source' p text = scanFrom source p text := by
  induction hn : text.length using Nat.strongRecOn generalizing p text with
  | ind n ih =>
    cases h : trivia false text with
    | mk skipped rest =>
      cases rest with
      | nil => rw [scanFrom_of_trivia_nil h, scanFrom_of_trivia_nil h, hfile]
      | cons c r =>
        obtain ⟨k, w, rest, hpiece, hlongest⟩ := isLongest_of_faultless h hfaults
        rw [hpiece] at h
        have hscan := scanFrom_cons_longest source p h hlongest
        have hscan' := scanFrom_cons_longest source' p h hlongest
        rw [(scanFrom_longest source p h hlongest).2] at hfaults
        dsimp only at hscan hscan'
        rw [hscan, hscan', hfile, ih rest.length ?_ hfaults rfl]
        have hlength := congrArg List.length (trivia_append false text)
        have hpos := List.length_pos_iff.2 hlongest.1.ne_nil
        rw [h, List.length_append, List.length_append] at hlength
        omega

/-- Tokens stand on the lines of their text. -/
theorem line_of_mem_scanFrom {p : Position} {text : List Char} {x : Scan}
    (hx : x ∈ scanFrom source p text) :
    (p.line : Int) ≤ x.shown.place.line ∧
      x.shown.place.line ≤ ((p.line + text.count '\n' : Nat) : Int) := by
  induction hn : text.length using Nat.strongRecOn generalizing p text with
  | ind n ih =>
    have hwhole := trivia_append false text
    cases h : trivia false text with
    | mk skipped rest =>
      rw [h] at hwhole
      dsimp only at hwhole
      have hcount := congrArg (List.count '\n') hwhole
      rw [List.count_append] at hcount
      cases rest with
      | nil =>
        rw [scanFrom_of_trivia_nil h, List.mem_singleton] at hx
        subst hx
        show (p.line : Int) ≤ ((p.after skipped).line : Int) ∧ ((p.after skipped).line : Int) ≤ _
        rw [Position.line_after]
        omega
      | cons c r =>
        have hsplit := congrArg (List.count '\n') (Piece.text_append_rest c r)
        rw [List.count_append] at hsplit
        rw [scanFrom_of_trivia h] at hx
        rcases List.mem_cons.1 hx with rfl | hx
        · unfold Token.place
          rw [(Scan.shown_ofPiece source (p.after skipped) (Piece.front c r)).2]
          show (p.line : Int) ≤ ((p.after skipped).line : Int) ∧ ((p.after skipped).line : Int) ≤ _
          rw [Position.line_after]
          omega
        · have hshorter := Piece.length_rest_le c r
          have hlength := congrArg List.length hwhole
          rw [List.length_append, List.length_cons] at hlength
          have hrest := ih _ (by omega) hx rfl
          rw [Position.line_after, Position.line_after] at hrest
          omega

/-! ## Lines -/

namespace Lines

/-- **A line feed ends the lines of what stands before it.** -/
theorem split_append (u v : List Char) : split (u ++ '\n' :: v) = split u ++ split v := by
  induction u with
  | nil =>
    obtain ⟨line, more, h⟩ := List.exists_cons_of_ne_nil (split_ne_nil v)
    simp [split, h]
  | cons c r ih =>
    obtain ⟨line, more, h⟩ := List.exists_cons_of_ne_nil (split_ne_nil r)
    rw [List.cons_append, split, ih, split, h]
    dsimp only [List.cons_append]
    split <;> rfl

theorem length_split (text : List Char) : (split text).length = text.count '\n' + 1 := by
  induction text with
  | nil => rfl
  | cons c r ih =>
    obtain ⟨line, more, h⟩ := List.exists_cons_of_ne_nil (split_ne_nil r)
    rw [h, List.length_cons] at ih
    rw [split, h, List.count_cons]
    dsimp only
    split
    next hc => simp [hc, ih]
    next hc => simp [hc, ih]

end Lines

section Behind

variable (file before text : String)

/-- The lines that a text starts behind another one with. -/
def linesOf (before : String) : Nat := before.toList.count '\n' + 1

theorem lines_behind : (Source.ofText file (before ++ "\n" ++ text)).lines =
    (Source.ofText file before).lines ++ (Source.ofText file text).lines := by
  unfold Source.ofText
  have htoList : (before ++ "\n" ++ text).toList = before.toList ++ '\n' :: text.toList := by
    simp [String.toList_append]
  rw [htoList, Lines.split_append, List.map_append]

theorem length_lines : (Source.ofText file before).lines.length = linesOf before := by
  unfold Source.ofText linesOf
  rw [List.length_map, Lines.length_split]

/-- The lines of the text behind. -/
theorem Source.line?_behind (n : Int) (hn : 1 ≤ n) :
    (Source.ofText file (before ++ "\n" ++ text)).line? (n + linesOf before) =
      (Source.ofText file text).line? n := by
  unfold line?
  rw [if_pos (by omega), if_pos (by omega), lines_behind, List.getElem?_append_right]
  · rw [length_lines]
    congr 1
    omega
  · rw [length_lines]
    omega

/-- The lines of the text before. -/
theorem Source.line?_before (n : Int) (hn : n ≤ linesOf before) :
    (Source.ofText file (before ++ "\n" ++ text)).line? n =
      (Source.ofText file before).line? n := by
  unfold line?
  split
  · rw [lines_behind, List.getElem?_append_left]
    rw [length_lines]
    omega
  · rfl

/-- The text behind, from any offset of it on. -/
theorem Source.drop_behind (n : Nat) :
    (Source.ofText file (before ++ "\n" ++ text)).text.drop (n + (before.length + 1)) =
      (Source.ofText file text).text.drop n := by
  have htoList : (before ++ "\n" ++ text).toList = (before.toList ++ ['\n']) ++ text.toList := by
    simp [String.toList_append]
  have hlength : n + (before.length + 1) = (before.toList ++ ['\n']).length + n := by
    rw [List.length_append, String.length_toList, List.length_singleton, Nat.add_comm]
  show (before ++ "\n" ++ text).toList.drop _ = text.toList.drop n
  rw [htoList, hlength, List.drop_length_add_append]

/-- A line feed only moves the scan on. -/
theorem scanFrom_feed (source : Source) (p : Position) (text : List Char) :
    scanFrom source p ('\n' :: text) = scanFrom source (p.next '\n') text := by
  cases h : trivia false text with
  | mk skipped rest =>
    have hfeed : trivia false ('\n' :: text) = ('\n' :: skipped, rest) := by
      rw [trivia_blank (by decide), h]
    cases rest with
    | nil => rw [scanFrom_of_trivia_nil hfeed, scanFrom_of_trivia_nil h, Position.after_cons]
    | cons c r => rw [scanFrom_of_trivia hfeed, scanFrom_of_trivia h, Position.after_cons]

/-- **The scans of two texts, one behind the other,** where there are no faults in the first. -/
theorem scan_behind {file before : String} (hfaults : Scan.faults (scansOf before file) = [])
    (text : String) : ∃ xs e ys, e.isEnd = true ∧ scansOf before file = xs ++ [.token e] ∧
      scansOf (before ++ "\n" ++ text) file = xs ++ ys ∧
        List.Forall₂ (Scan.Moves (.shift (linesOf before) (before.length + 1)))
          (scansOf text file) ys := by
  have htoList : (before ++ "\n" ++ text).toList = before.toList ++ '\n' :: text.toList := by
    simp [String.toList_append]
  have hfile (other : String) : (Source.ofText file (before ++ "\n" ++ text)).file =
      (Source.ofText file other).file := rfl
  have hsame : _ = scansOf before file := scanFrom_of_faultless (hfile before) hfaults
  have hseam : Seam before.toList ('\n' :: text.toList) := .inr fun c hc => by
    cases hc
    rfl
  -- a comment at the end of the first text ends with the line feed
  have hcomment : Uncommented before.toList ('\n' :: text.toList) := fun b _ _ _ _ =>
    ⟨by rintro ⟨⟩, rfl⟩
  rw [← hsame] at hfaults
  obtain ⟨xs, e, hend, hfirst, hboth⟩ := (scanFrom_join hfaults hseam hcomment).scans
  have hstart : (Position.start.after before.toList).next '\n' =
      Position.start.shift (linesOf before) (before.length + 1) := by
    have hfeed := Position.after_feed before.toList
    rw [Position.after_append] at hfeed
    rw [← String.length_toList]
    exact hfeed
  rw [scanFrom_feed, hstart] at hboth
  refine ⟨xs, e, _, hend, hsame.symm.trans hfirst, ?_, scanFrom_shift (hfile text)
    (Source.drop_behind file before text) .start text.toList⟩
  rw [← hboth, ← htoList]
  rfl

end Behind

end ArcLang
