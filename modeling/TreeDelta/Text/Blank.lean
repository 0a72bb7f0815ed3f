/-!
# White space

A character is blank when it has the Unicode property `White_Space`, or is one of the four
information separators of ASCII.

## Main definitions

* `Text.isBlank`: the 29 blank characters.
-/

namespace TreeDelta.Text

/-- The ranges of blank characters, as code points, ends included. The separators from `0x1c` to
`0x1f` are among them, the zero-width characters are not. -/
def blankRanges : List (Nat × Nat) :=
  [(0x9, 0xd), (0x1c, 0x20), (0x85, 0x85), (0xa0, 0xa0), (0x1680, 0x1680), (0x2000, 0x200a),
    (0x2028, 0x2029), (0x202f, 0x202f), (0x205f, 0x205f), (0x3000, 0x3000)]

/-- Whether a code point lies in one of the ranges. -/
def inRanges (ranges : List (Nat × Nat)) (n : Nat) : Bool :=
  ranges.any fun (low, high) => low ≤ n && n ≤ high

/-- Whether a character is white space. Blanks separate the tokens of an expression and are dropped
from it. -/
def isBlank (c : Char) : Bool := inRanges blankRanges c.toNat

end TreeDelta.Text
