/-!
# Control sequences

A terminal obeys a control sequence instead of showing it: an escape character, a bracket,
parameters and a letter. Text that is printed where no terminal reads it is printed without them.

* `strip_sublist`: the characters that stay keep their order.
* `strip_of_not_mem`: a text without escape characters stays as it is.
-/

namespace ArcLang.ControlSequence

/-- The character that starts a control sequence. -/
def escape : Char := '\x1b'

/-- What may stand between the bracket and the letter. -/
def isParameter (c : Char) : Bool := c.isDigit || c = ';' || c = '?'

/-- What follows the letter, where the text goes on from an escape character to the end of a control
sequence. -/
def behind? : List Char → Option (List Char)
  | '[' :: r =>
    match r.dropWhile isParameter with
    | c :: rest => if c.isAlpha then some rest else none
    | [] => none
  | _ => none

theorem sublist_of_behind? {r rest : List Char} (h : behind? r = some rest) : rest.Sublist r := by
  unfold behind? at h
  split at h
  · next r =>
    split at h
    · next c behind dropped =>
      split at h
      · cases h
        have kept := List.dropWhile_sublist isParameter (l := r)
        rw [dropped] at kept
        exact ((List.sublist_cons_self c rest).trans kept).cons _
      · cases h
    · cases h
  · cases h

/-- The text without its control sequences. An escape character that starts none stays. -/
def strip : List Char → List Char
  | [] => []
  | c :: r =>
    if c = escape then
      match _h : behind? r with
      | some rest => strip rest
      | none => c :: strip r
    else c :: strip r
termination_by text => text.length
decreasing_by
  · have := (sublist_of_behind? _h).length_le
    simp only [List.length_cons]
    omega
  all_goals simp

theorem strip_sublist (text : List Char) : (strip text).Sublist text := by
  fun_induction strip text with
  | case1 => exact List.Sublist.refl _
  | case2 r rest h ih => exact (ih.trans (sublist_of_behind? h)).cons escape
  | case3 r _ ih => exact ih.cons_cons escape
  | case4 c r _ ih => exact ih.cons_cons c

theorem strip_of_not_mem {text : List Char} (h : escape ∉ text) : strip text = text := by
  fun_induction strip text with
  | case1 => rfl
  | case2 => exact absurd List.mem_cons_self h
  | case3 => exact absurd List.mem_cons_self h
  | case4 c r _ ih => rw [ih fun hr => h (List.mem_cons_of_mem c hr)]

/-- The text as it is printed where no terminal reads it. -/
def plain (text : String) : String := String.ofList (strip text.toList)

end ArcLang.ControlSequence
