/-!
# Ranges of code points

A property of characters, as the closed ranges of code points that have it.
-/

namespace ArcLang

/-- Closed ranges of code points. -/
abbrev CodeRanges := List (Nat × Nat)

namespace CodeRanges

/-- Some range holds the code point. -/
def hold (ranges : CodeRanges) (n : Nat) : Bool := ranges.any fun (low, high) => low ≤ n && n ≤ high

/-- Some range holds the character. -/
def contains (ranges : CodeRanges) (c : Char) : Bool := ranges.hold c.toNat

theorem hold_cons (low high : Nat) (more : CodeRanges) (n : Nat) :
    hold ((low, high) :: more) n = ((low ≤ n && n ≤ high) || hold more n) := rfl

/-- Each range is in order, and ends before the next one starts. -/
def ascending : CodeRanges → Bool
  | [] => true
  | [(low, high)] => low ≤ high
  | (low, high) :: (next, last) :: more =>
    low ≤ high && high + 1 < next && ascending ((next, last) :: more)

end CodeRanges

end ArcLang
