/-!
# JSON values

A JSON value as it is written. Objects keep their members in order, with repeated names. Some texts
are well formed but denote nothing that can be held: a string with half of a surrogate pair, or a
number beyond the range of floating point numbers. They are `unreadable`: such a value can be passed
over but not read.
-/

namespace Reflow

/-- A JSON number: a natural number below 2^64, minus a positive number up to 2^63, or a floating
point number given by its bits. -/
inductive JsonNumber where
  | natural (value : Nat)
  | negative (magnitude : Nat)
  | real (bits : UInt64)
  deriving DecidableEq, Repr

inductive Json where
  | null
  | bool (value : Bool)
  | number (value : JsonNumber)
  | string (value : String)
  | array (items : List Json)
  | object (members : List (String × Json))
  | unreadable
  deriving Repr

end Reflow
