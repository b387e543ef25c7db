import Reflow.Text.Digit
import Reflow.Text.Width.Zero
import Reflow.Text.WordChar

/-!
# Letters and numbers

The alphabetic characters, and the characters of the general categories of numbers. Names may be
spelled with them. Most letters are the word characters that are nothing else, so the tables here
hold the exceptions only.
-/

namespace Reflow.Text

/-- The connectors and the marks with a column that are not alphabetic. -/
def nonLetterRanges : CharSet := #[
  (0xF3E, 0xF3F), (0x1CE1, 0x1CE1), (0x1CF7, 0x1CF7), (0x203F, 0x2054), (0x2D7F, 0x2D7F),
  (0xABEC, 0xABEC), (0xFE33, 0xFE4F), (0xFF3F, 0xFF3F)
]

/-- The marks without a column that are alphabetic, such as vowel signs, with letters between
them. -/
def markLetterRanges : CharSet := .ofRuns [
  837, 1, 29, 13, 576, 168, 1, 7, 16, 109, 4, 8, 4, 1, 35, 47, 102, 11, 101, 2, 3, 18, 106, 1, 60,
  12, 3, 7, 6, 75, 6, 8, 12, 15, 29, 1, 60, 7, 18, 13, 29, 2, 62, 12, 4, 1, 30, 19, 62, 8, 25, 2,
  22, 3, 4, 1, 60, 7, 17, 14, 30, 63, 22, 1, 40, 5, 57, 15, 8, 15, 29, 1, 61, 14, 8, 15, 28, 2, 60,
  7, 9, 22, 29, 1, 77, 17, 81, 10, 18, 1, 99, 9, 1, 2, 16, 1, 163, 19, 9, 48, 112, 10, 6, 2, 25, 54,
  15, 355, 1298, 2, 30, 2, 30, 34, 67, 16, 190, 174, 228, 72, 3, 19, 74, 2, 11, 56, 49, 15, 60, 42,
  2, 2, 58, 10, 58, 11, 412, 34, 4075, 32, 868, 1, 29967, 8, 34, 2, 354, 1, 8, 28, 158, 1, 57, 1,
  38, 5, 28, 11, 46, 3, 51, 8, 39, 1, 67, 36, 47, 67, 45, 2, 247, 4, 11207, 9071, 1153, 1, 981, 5,
  1670, 15, 788, 4, 65, 1, 321, 82, 260, 69, 45, 2, 11, 55, 11, 1, 61, 51, 77, 63, 3, 2, 11, 1, 95,
  6, 2, 178, 23, 2, 60, 3, 22, 1, 96, 18, 7, 1, 102, 8, 3, 2, 107, 17, 238, 15, 30, 98, 2, 1, 106,
  11, 103, 14, 260, 9, 248, 13, 2, 3, 146, 8, 37, 10, 42, 10, 18, 70, 409, 14, 84, 176, 1, 1, 2, 2,
  72, 6, 349, 78, 16861, 17, 3616, 68, 93, 2, 19628, 1, 9057, 144, 2231, 1
]

/-- The alphabetic characters that are too new to be word characters. -/
def newLetterRanges : CharSet := .ofRuns [
  2191, 1, 972, 1, 127, 1, 39665, 2, 2, 1, 1, 1, 28, 1, 24910, 26, 1387, 3, 50, 2, 3172, 8, 584, 44,
  20676, 25, 2, 25, 286, 5, 6145, 8, 1289, 22, 97, 115, 22733, 31, 1, 22, 8, 2, 53306, 6, 5986, 12,
  21762, 4298
]

/-- The numbers above ASCII that are no decimal digits. -/
def otherNumberRanges : CharSet := .ofRuns [
  178, 2, 5, 1, 2, 3, 2357, 6, 376, 6, 120, 3, 133, 7, 217, 7, 17, 9, 433, 10, 1077, 20, 881, 3,
  255, 10, 480, 1, 1685, 1, 3, 6, 6, 10, 198, 51, 2, 5, 726, 60, 78, 22, 630, 30, 1385, 1, 777, 1,
  25, 9, 14, 3, 343, 4, 138, 10, 30, 8, 1, 15, 32, 10, 39, 15, 29734, 10, 320, 6, 22737, 45, 12, 57,
  17, 2, 341, 27, 36, 4, 29, 1, 8, 1, 134, 5, 1154, 8, 25, 7, 39, 9, 75, 5, 22, 6, 160, 2, 2, 16, 2,
  46, 64, 9, 52, 2, 30, 3, 75, 5, 104, 8, 24, 8, 41, 7, 330, 6, 352, 31, 158, 10, 42, 4, 112, 7,
  134, 20, 379, 20, 1349, 2, 430, 9, 871, 19, 371, 10, 470, 21, 1067, 111, 18156, 7, 798, 23, 349,
  3, 25289, 20, 12, 20, 108, 25, 5454, 9, 929, 59, 1, 3, 1, 4, 76, 45, 1, 15, 962, 13
]

def isLetter (c : Char) : Bool :=
  if c.toNat < 0x80 then c.isAlpha
  else wordRanges.contains c && !nonLetterRanges.contains c && !digitRanges.contains c &&
      (!zeroWidthRanges.contains c || markLetterRanges.contains c) || newLetterRanges.contains c

def isNumber (c : Char) : Bool := isDecimalDigit c || otherNumberRanges.contains c

end Reflow.Text
