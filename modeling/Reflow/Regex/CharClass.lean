import Reflow.Text.Blank
import Reflow.Text.Digit
import Reflow.Text.WordChar

/-!
# Character classes

The sets of characters that a pattern can name: ranges, the classes of word characters, white space
and decimal digits, and what set operations make of them.
-/

namespace Reflow

open Text

inductive CharClass where
  | none
  | any
  | range (first last : Char)
  | word
  | blank
  | digit
  | complement (set : CharClass)
  | union (left right : CharClass)
  deriving DecidableEq, Repr

namespace CharClass

def test : CharClass → Char → Bool
  | none, _ => false
  | any, _ => true
  | range first last, c => first.toNat ≤ c.toNat && c.toNat ≤ last.toNat
  | word, c => isWordChar c
  | blank, c => isBlank c
  | digit, c => isDecimalDigit c
  | complement set, c => !set.test c
  | union left right, c => left.test c || right.test c

def single (c : Char) : CharClass := range c c

def inter (left right : CharClass) : CharClass :=
  complement (union (complement left) (complement right))

def diff (left right : CharClass) : CharClass := inter left (complement right)

def symmDiff (left right : CharClass) : CharClass := union (diff left right) (diff right left)

def unions : List CharClass → CharClass
  | [] => none
  | [set] => set
  | set :: rest => union set (unions rest)

end CharClass

end Reflow
