/-!
# Ranges of characters

A class of characters, given by the ranges of code points that make it up.

## Main definitions

- `CharRanges` — closed ranges of code points
- `CharRanges.contains` — membership of a character
-/

namespace Wiring.Text

/-- **A class of characters**: the first and the last code point of each of its ranges. -/
abbrev CharRanges := List (Nat × Nat)

/-- Whether the code point of the character lies in one of the ranges. -/
def CharRanges.contains (ranges : CharRanges) (c : Char) : Bool :=
  ranges.any fun r => r.1 ≤ c.toNat && c.toNat ≤ r.2

end Wiring.Text
