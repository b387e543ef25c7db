import Reflow.Data.SortedMap
import Reflow.Json.Printer
import Reflow.Settings.Style

/-!
# Preferences

The settings of an editor: rulers, a tab size, and other settings that are kept as they are. Objects
inside them are sorted by name, and the last member of a name counts. Rulers can be replaced for a
while and come back afterwards.
-/

namespace Reflow

open Json

namespace Json

mutual

/-- How deep arrays and objects are nested. -/
def nesting : Json → Nat
  | array items => nestingAll items + 1
  | object members => nestingMembers members + 1
  | _ => 0

def nestingAll : List Json → Nat
  | [] => 0
  | item :: rest => max (nesting item) (nestingAll rest)

def nestingMembers : List (String × Json) → Nat
  | [] => 0
  | (_, value) :: rest => max (nesting value) (nestingMembers rest)

end

mutual

/-- A value with the members of its objects sorted, if all of it can be read. -/
def canonical? : Json → Option Json
  | array items => (canonicalAll? items).map array
  | object members => (canonicalMembers? members).map fun members =>
    object (SortedMap.ofList members).entries
  | unreadable => none
  | value => some value

def canonicalAll? : List Json → Option (List Json)
  | [] => some []
  | item :: rest =>
    match canonical? item, canonicalAll? rest with
    | some item, some rest => some (item :: rest)
    | _, _ => none

def canonicalMembers? : List (String × Json) → Option (List (String × Json))
  | [] => some []
  | (name, value) :: rest =>
    match canonical? value, canonicalMembers? rest with
    | some value, some rest => some ((name, value) :: rest)
    | _, _ => none

end

end Json

structure Preferences where
  rulers : Option (List Nat) := none
  tabSize : Option Nat := none
  /-- Settings that are not known here. -/
  other : SortedMap Json := {}

namespace Preferences

def knownNames : List String := ["rulers", "tab_size"]

def maxNesting : Nat := 126

def otherValue? (value : Json) : Option Json :=
  if value.nesting ≤ maxNesting then value.canonical? else none

def ofJson? (json : Json) : Option Preferences :=
  match json with
  | .object members => do
    let [rulers, tabSize] ← fields? knownNames json | none
    let unknown := members.filter fun member => !knownNames.contains member.1
    let other ← unknown.mapM fun (name, value) => (otherValue? value).map (name, ·)
    return {
      rulers := ← rulers? rulers
      tabSize := ← tabSize? tabSize
      other := .ofList other }
  | _ => none

def ofText? (text : String) : Option Preferences := (Json.parse? text).bind ofJson?

def natJson (n : Nat) : Json := .number (.natural n)

/-- A known setting, unless it is unset. -/
def knownMember (name : String) : Option Json → List (String × Json)
  | some value => [(name, value)]
  | none => []

def toJson (preferences : Preferences) : Json :=
  .object
    (knownMember "rulers" (preferences.rulers.map fun rulers => .array (rulers.map natJson)) ++
      knownMember "tab_size" (preferences.tabSize.map natJson) ++ preferences.other.entries)

def toText (preferences : Preferences) : String := preferences.toJson.text

def style (preferences : Preferences) : Style :=
  Style.ofSettings preferences.rulers preferences.tabSize

def setRulers (preferences : Preferences) (rulers : Option (List Nat)) : Preferences :=
  { preferences with rulers }

def setTabSize (preferences : Preferences) (tabSize : Option Nat) : Preferences :=
  { preferences with tabSize }

/-- Uses preferences with other rulers for a while; afterwards the rulers are what they were,
whatever the use has done. -/
def withRulers {α : Type} (preferences : Preferences) (rulers : Option (List Nat))
    (use : Preferences → α × Preferences) : α × Preferences :=
  let (answer, changed) := use (preferences.setRulers rulers)
  (answer, changed.setRulers preferences.rulers)

end Preferences

end Reflow
