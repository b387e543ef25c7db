import Reflow.Text.Width.Zero
import Reflow.Text.WordChar

/-!
# Characters that show on their own

A quoted text shows a character as it is only if it is visible and does not attach to its left
neighbour. Controls, format characters, private use, unassigned code points, every separator but the
space, default-ignorable characters and grapheme extenders do not show. Of the word characters those
without a column are the ones that attach, so the table here holds the other characters that show.
-/

namespace Reflow.Text

/-- The punctuation, the symbols and the new letters above ASCII that show on their own, with word
characters between them, and the marks that show though they have no column. -/
def shownRanges : CharSet := .ofRuns [
  161, 12, 1, 594, 117, 1, 8, 1, 5, 4, 110, 141, 215, 49, 2, 3, 46, 1, 1, 1, 2, 1, 2, 1, 44, 2, 17,
  10, 11, 1, 1, 3, 74, 4, 102, 1, 9, 1, 10, 1, 19, 17, 232, 4, 4, 2, 48, 15, 31, 1, 41, 8, 212, 13,
  129, 12, 120, 1, 121, 2, 126, 8, 120, 11, 97, 1, 26, 9, 4, 1, 87, 1, 113, 2, 8, 7, 17, 10, 122, 1,
  74, 1, 15, 13, 165, 23, 2, 27, 1, 1, 1, 1, 1, 4, 71, 1, 56, 8, 1, 6, 1, 13, 111, 6, 78, 2, 91, 1,
  101, 159, 352, 29, 19, 10, 102, 623, 44, 2, 78, 3, 71, 2, 157, 8, 20, 10, 6, 11, 309, 1, 3, 2,
  148, 1, 3, 34, 30, 2, 128, 14, 160, 29, 9, 12, 124, 4, 59, 5, 62, 2, 64, 8, 11, 1, 745, 5, 11, 3,
  13, 19, 13, 2, 17, 24, 8, 47, 17, 1, 3, 27, 17, 34, 62, 140, 4, 666, 22, 11, 21, 1812, 2, 373, 14,
  7, 112, 1, 143, 94, 34, 26, 1, 89, 12, 214, 26, 16, 1, 32, 15, 16, 91, 97, 148, 86, 9, 48, 1,
  7136, 22160, 55, 55, 274, 99, 1, 10, 1, 115, 6, 8, 213, 28, 1, 54, 4, 4, 10, 58, 4, 86, 2, 40, 5,
  49, 2, 47, 1, 97, 13, 16, 2, 124, 30, 100, 2, 16, 2, 105, 17, 127, 1, 11204, 23, 4, 49, 9005, 1,
  136, 542, 44, 4, 16, 10, 22, 35, 1, 19, 1, 4, 149, 101, 122, 7, 1, 7, 13, 2, 258, 3, 4, 45, 3, 88,
  1, 13, 3, 1, 47, 45, 228, 27, 36, 4, 123, 1, 48, 1, 414, 1, 743, 41, 39, 9, 75, 33, 3, 1, 31, 27,
  98, 20, 2, 46, 64, 9, 7, 9, 36, 35, 40, 1, 34, 12, 66, 7, 24, 8, 24, 8, 25, 4, 12, 7, 330, 6, 110,
  1, 31, 2, 208, 31, 46, 1, 23, 3, 8, 9, 68, 10, 42, 9, 44, 4, 59, 7, 123, 7, 4, 20, 85, 2, 1, 4,
  126, 4, 48, 2, 76, 7, 4, 1, 13, 5, 1, 20, 67, 6, 107, 1, 295, 1, 2, 2, 1, 2, 114, 17, 1, 1, 104,
  1, 250, 23, 105, 3, 28, 13, 76, 1, 128, 6, 251, 1, 174, 9, 76, 3, 2, 3, 155, 1, 87, 1, 4, 8, 61,
  6, 16, 9, 93, 10, 87, 1, 3, 1, 1, 1, 121, 1, 95, 5, 20, 19, 3, 2, 212, 1, 105, 44, 4, 10, 269, 2,
  9, 1, 64, 13, 112, 50, 13, 1, 1136, 5, 2940, 2, 14971, 2, 133, 1, 65, 15, 21, 7, 523, 3, 272, 27,
  5, 25, 2, 25, 270, 1, 15, 5, 6145, 8, 1289, 22, 97, 115, 11945, 1, 2, 1, 3936, 253, 3, 436, 6, 23,
  15, 17, 95, 116, 60, 246, 10, 39, 2, 60, 5, 3, 22, 2, 7, 30, 4, 61, 21, 66, 3, 1, 122, 20, 12, 20,
  12, 87, 9, 25, 840, 259, 60, 512, 55, 4, 50, 8, 1, 14, 1, 7, 1731, 1, 431, 1, 767, 1, 192, 31, 1,
  3, 1, 2, 1, 7, 2, 5, 9, 2, 455, 9, 142, 2, 785, 68, 76, 61, 434, 2, 270, 44, 4, 100, 12, 15, 2,
  15, 1, 15, 1, 37, 10, 174, 56, 29, 13, 44, 4, 9, 7, 2, 14, 6, 154, 985, 3, 17, 3, 13, 3, 218, 6,
  12, 4, 1, 15, 12, 4, 56, 8, 10, 6, 40, 8, 30, 2, 12, 4, 2, 14, 9, 39, 344, 8, 14, 2, 13, 3, 11, 3,
  57, 1, 1, 4, 16, 2, 12, 4, 10, 7, 147, 1, 103, 47935, 6, 5986, 12, 21762, 4298
]

/-- Whether a character shows on its own. The Hangul filler and the Tifinagh joiner have a column,
and yet they do not. -/
def isPrintable (c : Char) : Bool :=
  if c.toNat < 0x80 then 0x20 ≤ c.toNat && c.toNat < 0x7f
  else shownRanges.contains c ||
    isWordChar c && !zeroWidthRanges.contains c && c.toNat != 0x115f && c.toNat != 0x2d7f

end Reflow.Text
