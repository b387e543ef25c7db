import Reflow.Text.Width.Emoji

/-!
# Characters of two columns

The characters whose East Asian width is wide or full, emoji among them.
-/

namespace Reflow.Text

/-- The characters of two columns that are no emoji, with emoji between them. -/
def wideRanges : CharSet := .ofRuns [
  4352, 96, 1604, 1, 2948, 2, 773, 8, 82, 6, 2032, 26, 1, 89, 12, 214, 26, 58, 6, 15, 2, 86, 4, 101,
  5, 43, 1, 51, 1, 42, 1, 86, 9, 48, 1, 40, 8, 29245, 3, 55, 1177, 29, 643, 11172, 8540, 512, 784,
  10, 22, 35, 1, 19, 1, 4, 149, 96, 127, 7, 28665, 4, 14, 5, 9, 7382, 41, 32, 97, 115, 8701, 4, 1,
  7, 1, 2, 1, 291, 15, 1, 29, 3, 2, 1, 14, 4, 8, 396, 8196, 87, 9, 23, 7817, 3, 13, 44, 4, 9, 23, 6,
  405, 5, 3072, 65534, 2, 65534
]

def isWide (c : Char) : Bool := emojiRanges.contains c || wideRanges.contains c

end Reflow.Text
