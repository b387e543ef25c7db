import Reflow.Grammar.Basic
import Reflow.Json.Decode
import Reflow.Json.Printer
import Reflow.Json.Reader

/-!
# Grammars as JSON

A grammar is written as an object with its atoms, its root and its rules. An atom is an object with
one member that is named for the kind of the atom and holds its parts.
-/

namespace Reflow

open Json

def jsonOfNat (n : Nat) : Json := .number (.natural n)

def jsonOfOption : Option Nat → Json
  | some n => jsonOfNat n
  | none => .null

namespace Atom

def toJson : Atom → Json
  | literal text => .object [("Str", .object [("pattern", .string text)])]
  | regex pattern => .object [("Re", .object [("pattern", .string pattern)])]
  | sequence parts => .object [("Sequence", .object [("atoms", .array (parts.map jsonOfNat))])]
  | choice options =>
    .object [("Alternative", .object [("atoms", .array (options.map jsonOfNat))])]
  | repetition atom least most =>
    .object [("Repetition", .object
      [("atom", jsonOfNat atom), ("min", jsonOfNat least), ("max", jsonOfOption most)])]
  | capture label atom =>
    .object [("Named", .object [("name", .string label), ("atom", jsonOfNat atom)])]
  | rule atom => .object [("Entity", .object [("atom", jsonOfNat atom)])]
  | lookahead atom positive =>
    .object [("Lookahead", .object [("atom", jsonOfNat atom), ("positive", .bool positive)])]
  | flat atom => .object [("Ignore", .object [("atom", jsonOfNat atom)])]

/-- Reads the upper bound of a repetition. It may be left out of an object, but not of an array. -/
def most? (body : Json) : Option Json → Option (Option Nat)
  | some value => nullable? nat? value
  | none =>
    match body with
    | .object _ => some none
    | _ => none

def ofJson? (json : Json) : Option Atom := do
  let (kind, body) ← choice? json
  match kind with
  | "Str" => do
    let [some text] ← fields? ["pattern"] body | none
    return literal (← string? text)
  | "Re" => do
    let [some pattern] ← fields? ["pattern"] body | none
    return regex (← string? pattern)
  | "Sequence" => do
    let [some parts] ← fields? ["atoms"] body | none
    return sequence (← list? nat? parts)
  | "Alternative" => do
    let [some options] ← fields? ["atoms"] body | none
    return choice (← list? nat? options)
  | "Repetition" => do
    let [some atom, some least, most] ← fields? ["atom", "min", "max"] body | none
    return repetition (← nat? atom) (← nat? least) (← most? body most)
  | "Named" => do
    let [some label, some atom] ← fields? ["name", "atom"] body | none
    return capture (← string? label) (← nat? atom)
  | "Entity" => do
    let [some atom] ← fields? ["atom"] body | none
    return rule (← nat? atom)
  | "Lookahead" => do
    let [some atom, some positive] ← fields? ["atom", "positive"] body | none
    return lookahead (← nat? atom) (← bool? positive)
  | "Ignore" => do
    let [some atom] ← fields? ["atom"] body | none
    return flat (← nat? atom)
  | _ => none

end Atom

namespace Grammar

def toJson (grammar : Grammar) : Json :=
  .object
    [("atoms", .array (grammar.atoms.toList.map Atom.toJson)), ("root", jsonOfNat grammar.root),
      ("rules", .object (grammar.rules.entries.map fun (name, atom) => (name, jsonOfNat atom)))]

def toText (grammar : Grammar) : String := grammar.toJson.text

/-- Reads named rules; the last of several rules with one name counts. -/
def rules? : Option Json → Option (SortedMap Nat)
  | none => some {}
  | some (.object members) => do
    let rules ← members.mapM fun (name, value) => (nat? value).map (name, ·)
    return .ofList rules
  | some _ => none

/-- Reads a grammar. The rules may be left out. -/
def ofJson? (json : Json) : Option Grammar := do
  let [some atoms, some root, rules] ← fields? ["atoms", "root", "rules"] json | none
  return {
    atoms := (← list? Atom.ofJson? atoms).toArray
    root := ← nat? root
    rules := ← rules? rules }

def ofText? (text : String) : Option Grammar := (Json.parse? text).bind ofJson?

end Grammar

end Reflow
