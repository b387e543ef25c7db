/-!
# Character sets

A character set is a table of inclusive code point ranges in increasing order. The longer tables are
written as the lengths of the gaps and runs of the set in turn.
-/

namespace Reflow.Text

/-- Inclusive code point ranges, in increasing order. -/
abbrev CharSet := Array (Nat × Nat)

def CharSet.contains (set : CharSet) (c : Char) : Bool :=
  set.any fun range => range.1 ≤ c.toNat && c.toNat ≤ range.2

/-- The ranges behind a code point, from the lengths of gaps and runs in turn. -/
def rangesFrom (start : Nat) : List Nat → List (Nat × Nat)
  | gap :: run :: rest =>
    (start + gap, start + gap + run - 1) :: rangesFrom (start + gap + run) rest
  | _ => []

def CharSet.ofRuns (runs : List Nat) : CharSet := (rangesFrom 0 runs).toArray

end Reflow.Text
