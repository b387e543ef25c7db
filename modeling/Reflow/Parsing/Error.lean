import Reflow.Grammar.Basic
import Reflow.Text.Position

/-!
# Parse errors

Why a parse gives no tree, and how that is told to a reader.
-/

namespace Reflow

inductive ParseError where
  /-- An atom does not match. -/
  | failed (position : Nat)
  /-- The grammar does not match all of the input; the position is the furthest it got. -/
  | unmatched (position : Nat) (expected : String)
  | invalidGrammar (fault : GrammarFault)
  | internal (message : String)
  | inputTooLarge (size limit : Nat)
  | recursionLimit (depth limit : Nat)
  /-- An atom comes back to itself at the same place without end. -/
  | endless
  deriving DecidableEq, Repr

namespace ParseError

/-- The byte offset an error points at. -/
def position? : ParseError → Option Nat
  | failed position | unmatched position _ => some position
  | _ => none

def message : ParseError → String
  | failed position => s!"Parse failed at position {position}"
  | unmatched position expected => s!"No match at position {position}: expected {expected}"
  | invalidGrammar fault => "Invalid grammar: " ++ fault.message
  | internal message => "Internal error: " ++ message
  | inputTooLarge size limit =>
    s!"Input too large: {size} bytes exceeds limit of {limit} bytes"
  | recursionLimit depth limit =>
    s!"Recursion limit exceeded: depth {depth} exceeds limit of {limit}"
  | endless => "Endless recursion"

/-- What an error says to a reader who has the input at hand: positions become lines and columns. -/
def locatedMessage (error : ParseError) (input : Text) : String :=
  match error with
  | failed position =>
    let place := (Text.Position.ofOffset input position).describe
    s!"Parse failed at {place} (byte offset {position})"
  | unmatched position expected =>
    let place := (Text.Position.ofOffset input position).describe
    s!"No match at {place}: expected {expected}"
  | other => other.message

end ParseError

end Reflow
