/-!
# Blank characters

Text is cut and trimmed at the characters with the Unicode `White_Space` property. The property is
a short list of ranges that has been stable for years; zero-width spaces, the byte order mark and
the information separators `U+001C` to `U+001F` are not in it.

## Main definitions

* `Text.isBlank`: membership in `White_Space`
* `Text.trim`: a text without the blanks at its two ends
-/

namespace ChomskyChart

namespace Text

/-- The ranges of the `White_Space` property, ends included. -/
def blankRanges : List (Nat × Nat) :=
  [(0x09, 0x0D), (0x20, 0x20), (0x85, 0x85), (0xA0, 0xA0), (0x1680, 0x1680), (0x2000, 0x200A),
    (0x2028, 0x2029), (0x202F, 0x202F), (0x205F, 0x205F), (0x3000, 0x3000)]

/-- Whether a character has the `White_Space` property. -/
def isBlank (c : Char) : Bool :=
  blankRanges.any fun r => r.1 ≤ c.toNat && c.toNat ≤ r.2

/-- Drops the blanks at both ends. -/
def trim (s : List Char) : List Char :=
  ((s.dropWhile isBlank).reverse.dropWhile isBlank).reverse

end Text

end ChomskyChart
