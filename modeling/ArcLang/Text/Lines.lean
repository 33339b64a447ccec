/-!
# Lines of a text

A text has one line more than it has line feeds. Files are read with every line end turned into
a line feed first (`unifyLineEnds`); after that nothing but a line feed ends a line.

* `Lines.join_split`: the lines, with line feeds between them, give back the text.
* `unifyLineEnds_of_not_mem`: a text without carriage returns is left as it is.
-/

namespace ArcLang

namespace Lines

/-- The lines of a text: what stands between line feeds. There is at least one. -/
def split : List Char → List (List Char)
  | [] => [[]]
  | c :: r =>
    match split r with
    | [] => [[c]]
    | line :: more => if c = '\n' then [] :: line :: more else (c :: line) :: more

/-- The lines with a line feed between neighbours. -/
def join : List (List Char) → List Char
  | [] => []
  | [line] => line
  | line :: more => line ++ '\n' :: join more

theorem split_ne_nil (text : List Char) : split text ≠ [] := by
  cases text with
  | nil => simp [split]
  | cons c r =>
    unfold split
    split
    · simp
    · split <;> simp

/-- **The lines determine the text.** -/
theorem join_split (text : List Char) : join (split text) = text := by
  induction text with
  | nil => rfl
  | cons c r ih =>
    unfold split
    split
    · next h => exact absurd h (split_ne_nil r)
    · next line more h =>
      rw [h] at ih
      split
      · next hc => simp [join, hc, ih]
      · cases more <;> simp_all [join]

end Lines

/-- A carriage return with a line feed behind it, or alone, becomes one line feed. -/
def unifyLineEnds : List Char → List Char
  | [] => []
  | '\r' :: '\n' :: r => '\n' :: unifyLineEnds r
  | c :: r => (if c = '\r' then '\n' else c) :: unifyLineEnds r

theorem unifyLineEnds_of_not_mem {text : List Char} (h : '\r' ∉ text) :
    unifyLineEnds text = text := by
  fun_induction unifyLineEnds text with
  | case1 => rfl
  | case2 => simp at h
  | case3 c r _ ih =>
    rw [List.mem_cons, not_or] at h
    rw [ih h.2, if_neg (Ne.symm h.1)]

end ArcLang
