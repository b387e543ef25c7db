import Reflow.Parsing.Error

/-!
# Formatting errors

Why a text cannot be formatted. The text itself is never touched.
-/

namespace Reflow

/-- Why a text cannot be formatted. -/
inductive FormatError where
  /-- The text does not follow the grammar of its kind. -/
  | unmatched (position : Text.Position) (expected : String)
  /-- The parser could not run. -/
  | engine (error : ParseError)
  deriving DecidableEq, Repr

namespace FormatError

/-- The formatting error of a parse error, with its place in the input. -/
def ofParse (input : Text) : ParseError → FormatError
  | .unmatched position expected => unmatched (.ofOffset input position) expected
  | .failed position => unmatched (.ofOffset input position) "a recognized construct"
  | error => engine error

/-- Where the text does not follow its grammar. -/
def position? : FormatError → Option Text.Position
  | unmatched position _ => some position
  | engine _ => none

def source? : FormatError → Option ParseError
  | unmatched _ _ => none
  | engine error => some error

def message : FormatError → String
  | unmatched position expected =>
    let place := position.describe
    s!"cannot format text: at {place} expected {expected}"
  | engine error => "cannot format text: " ++ error.message

end FormatError

end Reflow
