import Reflow.Json.Decode
import Reflow.Json.Reader
import Reflow.Style

/-!
# Styles from settings

The style stored in the settings of an editor.
-/

namespace Reflow

open Json

/-- Reads a policy: its name, or an object with its name and null. -/
def UnnamedPolicy.ofJson? : Json → Option UnnamedPolicy
  | .string name => UnnamedPolicy.ofName? name
  | .object [(name, .null)] => UnnamedPolicy.ofName? name
  | _ => none

/-- Reads an optional field; a missing one has a default. -/
def field? {α : Type} (read? : Json → Option α) (default : α) : Option Json → Option α
  | some value => read? value
  | none => some default

def rulers? : Option Json → Option (Option (List Nat)) := field? (nullable? (list? nat?)) none

def tabSize? : Option Json → Option (Option Nat) := field? (nullable? nat?) none

def Style.ofJson? (json : Json) : Option Style := do
  let [rulers, tabSize, unnamed] ← fields? ["rulers", "tab_size", "unnamed_params"] json | none
  let style := Style.ofSettings (← rulers? rulers) (← tabSize? tabSize)
  return style.withUnnamed (← field? UnnamedPolicy.ofJson? .drop unnamed)

def Style.ofText? (text : String) : Option Style := (Json.parse? text).bind Style.ofJson?

end Reflow
