import Reflow.Text.Basic

/-!
# White space

Blank characters, trimming, and the words of a text. A word is a maximal run of characters that are
not blank, so the words of a text determine everything but its white space.
-/

namespace Reflow.Text

/-- White space: the ASCII blanks, the next-line and no-break spaces, and the separators. -/
def isBlank (c : Char) : Bool :=
  let n := c.toNat
  (0x09 ≤ n && n ≤ 0x0d) || n == 0x20 || n == 0x85 || n == 0xa0 || n == 0x1680 ||
    (0x2000 ≤ n && n ≤ 0x200a) || n == 0x2028 || n == 0x2029 || n == 0x202f || n == 0x205f ||
    n == 0x3000

/-- A tab or a space, the only characters that indent a line. -/
def isIndent (c : Char) : Bool := c == '\t' || c == ' '

abbrev Indents (text : Text) : Prop := ∀ c ∈ text, isIndent c

def trimStart (text : Text) : Text := text.dropWhile isBlank

def dropEndWhile (test : Char → Bool) : Text → Text
  | [] => []
  | c :: rest =>
    match dropEndWhile test rest with
    | [] => if test c then [] else [c]
    | kept => c :: kept

def trimEnd (text : Text) : Text := dropEndWhile isBlank text

def trim (text : Text) : Text := trimEnd (trimStart text)

def isBlankText (text : Text) : Bool := text.all isBlank

def consWord (word : Text) (words : List Text) : List Text :=
  if word.isEmpty then words else word :: words

/-- The word that starts at the very front, empty if there is none, and the words after it. -/
def splitWord : Text → Text × List Text
  | [] => ([], [])
  | c :: rest =>
    let (word, words) := splitWord rest
    if isBlank c then ([], consWord word words) else (c :: word, words)

/-- The maximal runs of characters that are not white space, in order. -/
def words (text : Text) : List Text :=
  let (word, rest) := splitWord text
  consWord word rest

end Reflow.Text
