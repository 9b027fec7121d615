/-!
# Blanks: the characters that separate tokens and mean nothing else

The class is Unicode's White_Space property, which has had the same members since the Mongolian vowel separator left it. It is
wider than the blanks of `Char.isWhitespace`: it also holds the line and paragraph separators and every space of another width.
-/

namespace CubeAxes

/-- The ranges of White_Space, ends included. -/
def blankRanges : List (Nat × Nat) :=
  [(0x09, 0x0D), (0x20, 0x20), (0x85, 0x85), (0xA0, 0xA0), (0x1680, 0x1680), (0x2000, 0x200A), (0x2028, 0x2029),
    (0x202F, 0x202F), (0x205F, 0x205F), (0x3000, 0x3000)]

/-- A blank is a character with the White_Space property. -/
def isBlank (c : Char) : Bool :=
  blankRanges.any fun r => decide (r.1 ≤ c.toNat) && decide (c.toNat ≤ r.2)

end CubeAxes
