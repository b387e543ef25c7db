import Reflow.Text.Basic
import Reflow.Text.WordChar

/-!
# Places in a text and conditions on them

A regular expression is matched at a site: a place in a text, given by the character before it and
all that follows. Anchors are conditions on a site. They consume nothing.
-/

namespace Reflow

open Text

inductive Anchor where
  | textStart
  | textEnd
  | lineStart
  | lineEnd
  | wordBoundary
  | noWordBoundary
  | wordStart
  | wordEnd
  | wordStartHalf
  | wordEndHalf
  deriving DecidableEq, Repr

structure Site where
  /-- The character before the place, if the text does not start there. -/
  before : Option Char
  /-- What follows. -/
  rest : Text
  deriving DecidableEq, Repr

/-- Whether a possible neighbour is a word character. -/
def isWordSide : Option Char → Bool
  | some c => isWordChar c
  | none => false

namespace Anchor

def holds (condition : Anchor) (site : Site) : Bool :=
  let left := isWordSide site.before
  let right := isWordSide site.rest.head?
  match condition with
  | textStart => site.before.isNone
  | textEnd => site.rest.isEmpty
  | lineStart => site.before.isNone || site.before == some '\n'
  | lineEnd => site.rest.isEmpty || site.rest.head? == some '\n'
  | wordBoundary => left != right
  | noWordBoundary => left == right
  | wordStart => !left && right
  | wordEnd => left && !right
  | wordStartHalf => !left
  | wordEndHalf => !right

/-- Whether a condition depends on nothing but what stands before the site. -/
def looksBehind : Anchor → Bool
  | textStart | lineStart | wordStartHalf => true
  | _ => false

def asksWords : Anchor → Bool
  | textStart | textEnd | lineStart | lineEnd => false
  | _ => true

end Anchor

end Reflow
