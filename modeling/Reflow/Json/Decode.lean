import Reflow.Json.Basic

/-!
# Reading structures from JSON

The conventions by which JSON values are read as structured data. A record is an object with the
record's fields, each at most once, among members that are passed over; or an array of the fields in
order. A choice is an object with one member, named for the alternative.
-/

namespace Reflow.Json

/-- A natural number below 2^64. -/
def nat? : Json → Option Nat
  | number (.natural value) => some value
  | _ => none

def string? : Json → Option String
  | string value => some value
  | _ => none

def bool? : Json → Option Bool
  | bool value => some value
  | _ => none

def list? {α : Type} (item? : Json → Option α) : Json → Option (List α)
  | array items => items.mapM item?
  | _ => none

def nullable? {α : Type} (item? : Json → Option α) : Json → Option (Option α)
  | null => some none
  | value => (item? value).map some

/-- The values of a record's fields, in the order of their names: from an object, where a field may
be missing but not repeated, or from an array of at most as many items. -/
def fields? (names : List String) : Json → Option (List (Option Json))
  | object members =>
    names.mapM fun name =>
      match members.filter (·.1 == name) with
      | [] => some none
      | [(_, value)] => some (some value)
      | _ => none
  | array items =>
    if items.length ≤ names.length then
      some (items.map some ++ List.replicate (names.length - items.length) none)
    else none
  | _ => none

/-- The name and the content of a choice. -/
def choice? : Json → Option (String × Json)
  | object [member] => some member
  | _ => none

end Reflow.Json
