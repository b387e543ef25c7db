import Reflow.Data.SortedMap
import Reflow.Text.Quoted

/-!
# Grammars

A grammar is a table of atoms that refer to each other by index, with a root and the names of its
rules. Grammars are plain data: they may be ill formed, and `Grammar.fault?` finds the first fault.
-/

namespace Reflow

/-- A parsing expression whose parts are given by their indices in a grammar. -/
inductive Atom where
  /-- A fixed text. -/
  | literal (text : String)
  /-- A regular expression. -/
  | regex (pattern : String)
  /-- Atoms one after the other. -/
  | sequence (parts : List Nat)
  /-- The first atom that matches. -/
  | choice (options : List Nat)
  /-- An atom as often as it matches, at least and at most some number of times. -/
  | repetition (atom least : Nat) (most : Option Nat)
  /-- An atom whose match is captured under a label. -/
  | capture (label : String) (atom : Nat)
  /-- An atom that is the body of a rule. -/
  | rule (atom : Nat)
  /-- A check that an atom matches here, or that it does not, without consuming anything. -/
  | lookahead (atom : Nat) (positive : Bool)
  /-- An atom of whose match only the extent is kept. -/
  | flat (atom : Nat)
  deriving DecidableEq, Repr

namespace Atom

def children : Atom → List Nat
  | literal _ | regex _ => []
  | sequence atoms | choice atoms => atoms
  | repetition atom _ _ | capture _ atom | rule atom | lookahead atom _ | flat atom => [atom]

/-- How an atom is named in diagnostics. -/
def describe : Atom → String
  | literal text => Text.quoted text.toList
  | regex pattern => "/" ++ pattern ++ "/"
  | sequence _ => "sequence"
  | choice _ => "alternative"
  | repetition _ _ _ => "repetition"
  | capture label _ => label
  | rule _ => "rule"
  | lookahead _ true => "lookahead"
  | lookahead _ false => "negative lookahead"
  | flat _ => "ignored"

end Atom

/-- A table of atoms with a root and named rules. -/
structure Grammar where
  atoms : Array Atom
  root : Nat
  rules : SortedMap Nat := {}
  deriving DecidableEq, Repr

inductive GrammarFault where
  | missingRoot (root : Nat)
  | missingPart (atom part : Nat)
  | emptyBounds (atom most least : Nat)
  | missingRule (name : String) (atom : Nat)
  | undefinedRule (name : String)
  | noRules
  | malformedRegex (pattern : String)
  /-- A fault that something outside the library reports. -/
  | reported (reason : String)
  deriving DecidableEq, Repr

def GrammarFault.message : GrammarFault → String
  | missingRoot root => s!"root atom {root} does not exist"
  | missingPart atom part => s!"atom {atom} refers to missing atom {part}"
  | emptyBounds atom most least => s!"atom {atom} repeats at most {most} < {least} times"
  | missingRule name atom => s!"rule {name} refers to missing atom {atom}"
  | undefinedRule name => "reference to undefined rule " ++ Text.quoted name.toList
  | noRules => "grammar defines no rules"
  | malformedRegex pattern => "invalid regex " ++ Text.quoted pattern.toList
  | reported reason => reason

namespace Grammar

def ruleAtom? (grammar : Grammar) (name : String) : Option Nat := grammar.rules.get? name

/-- The first name of a rule that stands for an atom. -/
def ruleName? (grammar : Grammar) (atom : Nat) : Option String :=
  (grammar.rules.entries.find? (·.2 == atom)).map (·.1)

/-- The last name of a rule that stands for an atom; diagnostics use this one. -/
def contextName? (grammar : Grammar) (atom : Nat) : Option String :=
  (grammar.rules.entries.reverse.find? (·.2 == atom)).map (·.1)

/-- The first fault of one atom in a table of a given size. -/
def atomFault? (size index : Nat) (atom : Atom) : Option GrammarFault :=
  match atom.children.find? (size ≤ ·) with
  | some part => some (.missingPart index part)
  | none =>
    match atom with
    | .repetition _ least (some most) =>
      if most < least then some (.emptyBounds index most least) else none
    | _ => none

/-- The first fault of a grammar: of its root, then of its atoms, then of its rules. -/
def fault? (grammar : Grammar) : Option GrammarFault :=
  let size := grammar.atoms.size
  if size ≤ grammar.root then some (.missingRoot grammar.root)
  else
    match grammar.atoms.toList.zipIdx.findSome? fun (atom, index) => atomFault? size index atom with
    | some fault => some fault
    | none =>
      grammar.rules.entries.findSome? fun (name, atom) =>
        if size ≤ atom then some (.missingRule name atom) else none

def checked (grammar : Grammar) : Except GrammarFault Grammar :=
  match grammar.fault? with
  | some fault => .error fault
  | none => .ok grammar

end Grammar

end Reflow
