import Reflow.Text.Width.Zero

/-!
# Letters that join

The letters that are drawn as one with the letter before them, and the marks without a column that
may stand between the two.
-/

namespace Reflow.Text

/-- Marks without a column that may stand inside a ligature. -/
def ligatureMarkRanges : CharSet := #[
  (0x34F, 0x34F), (0x17B4, 0x17B5), (0x180B, 0x180D), (0x180F, 0x180F), (0xFE00, 0xFE0F),
  (0xE0100, 0xE01EF)
]

/-- Characters without a column through which Arabic letters do not join. -/
def nonJoiningRanges : CharSet := .ofRuns [
  1541, 1, 650, 2, 80, 1, 219, 1, 24, 1, 358, 1, 24, 1, 102, 1, 24, 1, 232, 1, 1, 1, 4, 2, 1, 2, 9,
  2, 103, 1, 15, 1, 8, 1, 119, 1, 15, 1, 896, 160, 1301, 1, 30, 1, 217, 1, 806, 1, 5, 1, 1, 1, 5, 2,
  101, 1, 71, 2, 1048, 2, 87, 5, 4036, 2, 308, 1, 30613, 1, 88, 1, 108, 1, 11759, 23, 4, 49, 10148,
  1, 79, 9, 4551, 1, 1, 2, 113, 1, 264, 1, 14, 1, 9, 1, 96, 1, 9, 1, 2, 1, 1, 3, 5, 1, 1, 1, 222, 1,
  12, 1, 241, 1, 262, 1, 633, 1, 12, 1, 1, 1, 1, 1, 248, 1, 73, 6, 700, 1, 443, 1, 62, 1, 20654, 2,
  24947, 2, 6, 6, 798349, 1, 1, 30, 96, 128, 240, 3600
]

/-- Whether a character is a mark without a column through which Arabic letters join. -/
def isJoiningMark (c : Char) : Bool := zeroWidthRanges.contains c && !nonJoiningRanges.contains c

def alefRanges : CharSet := #[
  (0x622, 0x623), (0x625, 0x625), (0x627, 0x627), (0x671, 0x673), (0x675, 0x675), (0x773, 0x774),
  (0x870, 0x882)
]

def lamRanges : CharSet := #[
  (0x644, 0x644), (0x6B5, 0x6B8), (0x76A, 0x76A), (0x8A6, 0x8A6), (0x8C7, 0x8C7)
]

/-- Khmer letters that go below the line when a coeng sign precedes them. -/
def khmerSubscriptRanges : CharSet := #[
  (0x1780, 0x1782), (0x1784, 0x1787), (0x1789, 0x178C), (0x178E, 0x1793), (0x1795, 0x1798),
  (0x179B, 0x179D), (0x17A0, 0x17A0), (0x17A2, 0x17A2), (0x17A7, 0x17A7), (0x17AB, 0x17AC),
  (0x17AF, 0x17AF)
]

/-- Whether a character is a Tifinagh consonant. -/
def isTifinagh (c : Char) : Bool := (0x2d31 ≤ c.toNat && c.toNat ≤ 0x2d65) || c.toNat == 0x2d6f

end Reflow.Text
