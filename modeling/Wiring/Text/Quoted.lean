import Wiring.Text.DefaultIgnorable
import Wiring.Text.GraphemeExtend
import Wiring.Text.Unprintable

/-!
# Quoted characters

How a message shows a single character, so that every character is visible and no two look alike:
between single quotes, with a backslash form for those that would not show.

## Main definitions

- `Text.isInvisible` — whether a character would not show between quotes
- `Text.escaped` — the form of a character inside quotes
- `Text.quoted` — that form between single quotes
-/

namespace Wiring.Text

/-- The halfwidth voiced and semi-voiced sound marks. Of all letters only these extend a grapheme,
    and they do so in a place of their own. -/
def isHalfwidthSoundMark (c : Char) : Bool := c == '\uff9e' || c == '\uff9f'

/-- **Whether a character would not show between quotes**: it has no visible form, or merges with
    the quote before it. -/
def isInvisible (c : Char) : Bool :=
  isUnprintable c || isDefaultIgnorable c || (isGraphemeExtend c && !isHalfwidthSoundMark c)

/-- A code point in lower-case hexadecimal digits without padding, in braces after `\u`. -/
def byNumber (c : Char) : String :=
  "\\u\x7b" ++ String.ofList (Nat.toDigits 16 c.toNat) ++ "\x7d"

/-- **The form of a character inside single quotes.** The null character, tab, line feed, carriage
    return, the quote itself and the backslash have signs of their own; any other character that
    would not show is given by number; all else stands for itself. -/
def escaped (c : Char) : String :=
  if c = '\x00' then "\\0"
  else if c = '\t' then "\\t"
  else if c = '\n' then "\\n"
  else if c = '\r' then "\\r"
  else if c = '\x27' then "\\\x27"
  else if c = '\\' then "\\\\"
  else if isInvisible c then byNumber c
  else String.singleton c

/-- A character between single quotes. -/
def quoted (c : Char) : String := "\x27" ++ escaped c ++ "\x27"

end Wiring.Text
