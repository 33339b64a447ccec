/-!
# Options of a parse

The bound on nesting and the most diagnostics to keep, within their ranges.

* `Options.ofInts?_eq_ok_iff`: two numbers are options exactly when both are in range.
-/

namespace ArcLang

/-- The deepest nesting that may be asked for. -/
def deepestBound : Int := 125

/-- The bound on nesting and on diagnostics. -/
structure Options where
  maxDepth : Int := 64
  maxErrors : Int := 100
  one_le_maxDepth : 1 ≤ maxDepth := by decide
  maxDepth_le : maxDepth ≤ deepestBound := by decide
  one_le_maxErrors : 1 ≤ maxErrors := by decide

/-- A number out of its range. -/
inductive OptionFault
  | depthTooSmall (n : Int)
  | depthTooLarge (n : Int)
  | errorsTooFew (n : Int)

namespace OptionFault

/-- What is said of a number out of its range. -/
def message : OptionFault → String
  | depthTooSmall n => s!"max_depth must be at least 1, got {n}"
  | depthTooLarge n =>
    s!"max_depth must be at most {deepestBound} at the current recursion limit, got {n}"
  | errorsTooFew n => s!"max_errors must be at least 1, got {n}"

end OptionFault

namespace Options

/-- The options with two numbers, unless one is out of range. The depth is looked at first. -/
def ofInts? (maxDepth maxErrors : Int) : Except OptionFault Options :=
  if low : maxDepth < 1 then .error (.depthTooSmall maxDepth)
  else if high : deepestBound < maxDepth then .error (.depthTooLarge maxDepth)
  else if few : maxErrors < 1 then .error (.errorsTooFew maxErrors)
  else .ok ⟨maxDepth, maxErrors, by omega, by omega, by omega⟩

/-- **Two numbers are options exactly when both are in range.** -/
theorem ofInts?_eq_ok_iff {maxDepth maxErrors : Int} {o : Options} :
    ofInts? maxDepth maxErrors = .ok o ↔ o.maxDepth = maxDepth ∧ o.maxErrors = maxErrors := by
  have := o.one_le_maxDepth
  have := o.maxDepth_le
  have := o.one_le_maxErrors
  unfold ofInts?
  constructor
  · intro h
    repeat' split at h
    all_goals first | cases h; exact ⟨rfl, rfl⟩ | cases h
  · rintro ⟨rfl, rfl⟩
    rw [dif_neg (by omega), dif_neg (by omega), dif_neg (by omega)]

end Options

end ArcLang
