import Wiring.Text.CharRanges

/-!
# Blank characters

A character is blank when it has the property White_Space. Formulas may be laid out with blanks
anywhere; they are skipped, also inside a name.

## Main definitions

- `blankRanges` — the code points, as closed ranges in ascending order
- `isBlank` — membership of a character
-/

namespace Wiring.Text

/-- Code points with the property White_Space. -/
def blankRanges : CharRanges :=
  [(0x9, 0xd), (0x20, 0x20), (0x85, 0x85), (0xa0, 0xa0), (0x1680, 0x1680), (0x2000, 0x200a),
   (0x2028, 0x2029), (0x202f, 0x202f), (0x205f, 0x205f), (0x3000, 0x3000)]

/-- Whether the character counts as white space. -/
def isBlank (c : Char) : Bool := blankRanges.contains c

end Wiring.Text
