import Reflow.Regex.Anchor
import Reflow.Regex.CharClass

/-!
# Regular expressions

The expressions that are matched. A choice prefers its left side; a greedy loop prefers one more
round and a lazy one prefers to leave.
-/

namespace Reflow

inductive Regex where
  | empty
  | set (chars : CharClass)
  | anchor (condition : Anchor)
  | seq (first second : Regex)
  | alt (left right : Regex)
  /-- Any number of rounds. -/
  | star (greedy : Bool) (inner : Regex)
  /-- At least one round. -/
  | plus (greedy : Bool) (inner : Regex)
  deriving DecidableEq, Repr

namespace Regex

def optional (greedy : Bool) (inner : Regex) : Regex :=
  if greedy then alt inner empty else alt empty inner

def upTo (greedy : Bool) (inner : Regex) : Nat → Regex
  | 0 => empty
  | rounds + 1 => optional greedy (seq inner (upTo greedy inner rounds))

/-- A number of rounds, halved again and again so that the expression stays flat. The first number
bounds how often. -/
def timesWithin (inner : Regex) : Nat → Nat → Regex
  | 0, _ => empty
  | depth + 1, rounds =>
    if rounds = 0 then empty
    else if rounds = 1 then inner
    else
      seq (timesWithin inner depth (rounds / 2)) (timesWithin inner depth (rounds - rounds / 2))

def times (inner : Regex) (rounds : Nat) : Regex := timesWithin inner rounds rounds

/-- Whether every match starts where the text starts. -/
def isAnchored : Regex → Bool
  | anchor condition => condition == .textStart
  | seq first _ => first.isAnchored
  | alt left right => left.isAnchored && right.isAnchored
  | plus _ inner => inner.isAnchored
  | _ => false

end Regex

end Reflow
