import ArcLang.Text.CodeRanges

/-!
# White space

The characters with the Unicode property of that name; they may stand around a number.

* `isWhiteSpace_of_isWhitespace`: the blanks of ASCII are among them.
-/

namespace ArcLang.WhiteSpace

/-- The ranges of white space. -/
def ranges : CodeRanges :=
  [(0x9, 0xD), (0x20, 0x20), (0x85, 0x85), (0xA0, 0xA0), (0x1680, 0x1680), (0x2000, 0x200A),
   (0x2028, 0x2029), (0x202F, 0x202F), (0x205F, 0x205F), (0x3000, 0x3000)]

/-- The character is white space. -/
def isWhiteSpace (c : Char) : Bool := ranges.contains c

theorem ranges_ascending : ranges.ascending = true := by decide

/-- **The blanks of ASCII are white space.** -/
theorem isWhiteSpace_of_isWhitespace {c : Char} (h : c.isWhitespace = true) :
    isWhiteSpace c = true := by
  simp only [Char.isWhitespace, Bool.or_eq_true, decide_eq_true_eq] at h
  rcases h with ((h | h) | h) | h <;> subst h <;> decide

end ArcLang.WhiteSpace
