import ArcLang.Diagnostic

/-!
# Collecting diagnostics

A collector keeps the first diagnostics that it is given, as many as its capacity says, in the
order of their coming. A report lists them by place.

* `Collector.errors_ofList`: adding a list to an empty collector keeps its front part.
* `Collector.sorted_perm`: sorting loses nothing.
-/

namespace ArcLang

/-- Diagnostics that are kept in the order of their coming, up to a capacity. -/
structure Collector where
  /-- No more than so many are kept; none, if it is not positive. -/
  capacity : Int := 100
  /-- What is kept; `errors` is the view of it. -/
  kept : Array Diagnostic := #[]

namespace Collector

/-- The diagnostics in the order of their coming. -/
def errors (c : Collector) : List Diagnostic := c.kept.toList

/-- No further diagnostic is kept. -/
def isFull (c : Collector) : Bool := c.capacity ≤ c.kept.size

/-- Keeps a diagnostic unless the collector is full. -/
def add (c : Collector) (d : Diagnostic) : Collector :=
  if c.isFull then c else { c with kept := c.kept.push d }

/-- Adds one diagnostic after the other. -/
def addAll (c : Collector) (ds : List Diagnostic) : Collector := ds.foldl add c

/-- Forgets everything but the capacity. -/
def clear (c : Collector) : Collector := { c with kept := #[] }

/-- A collector of a capacity, given a list. -/
def ofList (capacity : Int) (ds : List Diagnostic) : Collector :=
  addAll { capacity := capacity } ds

theorem isFull_iff (c : Collector) : c.isFull = true ↔ c.capacity ≤ c.errors.length := by
  simp [isFull, errors]

theorem errors_add (c : Collector) (d : Diagnostic) :
    (c.add d).errors = if c.isFull then c.errors else c.errors ++ [d] := by
  unfold add; split <;> simp [errors]

theorem capacity_add (c : Collector) (d : Diagnostic) : (c.add d).capacity = c.capacity := by
  unfold add; split <;> rfl

/-- **What is kept is what fits,** in the order of coming. -/
theorem errors_addAll (c : Collector) (ds : List Diagnostic)
    (fits : c.errors.length ≤ c.capacity.toNat) :
    (c.addAll ds).errors = (c.errors ++ ds).take c.capacity.toNat := by
  induction ds generalizing c with
  | nil => simp [addAll, List.take_of_length_le fits]
  | cons d ds ih =>
    have step : c.addAll (d :: ds) = (c.add d).addAll ds := rfl
    rw [step]
    by_cases full : c.isFull
    · have same : c.add d = c := by simp [add, full]
      rw [same, ih c fits]
      rw [isFull_iff] at full
      rw [List.take_append_of_le_length (by omega), List.take_append_of_le_length (by omega)]
    · have more : (c.add d).errors = c.errors ++ [d] := by simp [errors_add, full]
      rw [isFull_iff] at full
      have room : (c.add d).errors.length ≤ (c.add d).capacity.toNat := by
        rw [more, capacity_add, List.length_append, List.length_singleton]; omega
      rw [ih (c.add d) room, more, capacity_add, List.append_assoc, List.singleton_append]

theorem errors_ofList (capacity : Int) (ds : List Diagnostic) :
    (ofList capacity ds).errors = ds.take capacity.toNat :=
  errors_addAll { capacity := capacity } ds (Nat.zero_le _)

/-- `a` is listed no later than `b`: by offset, and behind all others without a place. -/
def precedes (a b : Diagnostic) : Bool :=
  match a.place, b.place with
  | some l, some m => l.offset ≤ m.offset
  | some _, none => true
  | none, none => true
  | none, some _ => false

/-- The diagnostics by place; those that `precedes` does not tell apart stay in their order. -/
def sorted (c : Collector) : List Diagnostic := c.errors.mergeSort precedes

theorem sorted_perm (c : Collector) : c.sorted.Perm c.errors := List.mergeSort_perm _ _

/-- The number of diagnostics, in words. -/
def tally (n : Nat) : String := toString n ++ if n = 1 then " error" else " errors"

/-- Every diagnostic with an empty line behind it, and the tally. -/
def report (c : Collector) : String :=
  "\n".intercalate (c.sorted.flatMap (fun d => [d.text, ""]) ++ [tally c.kept.size])

end Collector

end ArcLang
