import Reflow.Grammar.Basic

/-!
# Building grammars

Rules are written as expressions that refer to other rules by name. A builder appends the atoms of
every expression to its table, parts before the whole and left to right. A reference is appended as
a placeholder and waits until all rules are there, when the atom of its rule is filled in. A later
rule of the same name replaces an earlier one, whose atoms stay in the table.
-/

namespace Reflow

inductive Expr where
  | literal (text : String)
  | regex (pattern : String)
  | reference (rule : String)
  | sequence (parts : List Expr)
  | choice (options : List Expr)
  | repetition (inner : Expr) (least : Nat) (most : Option Nat)
  | capture (inner : Expr) (label : String)
  | lookahead (inner : Expr) (positive : Bool)
  | flat (inner : Expr)
  deriving Repr

/-- Expressions by the names of their rules. -/
abbrev Rules := List (String × Expr)

namespace Expr

def many (inner : Expr) : Expr := repetition inner 0 none

def many1 (inner : Expr) : Expr := repetition inner 1 none

def optional (inner : Expr) : Expr := repetition inner 0 (some 1)

/-- A check that an expression does not match here. -/
def notAhead (inner : Expr) : Expr := lookahead inner false

def any : Expr := regex "(?s)."

def eof : Expr := notAhead any

/-- A line break, or the end of the input. -/
def lineEnd : Expr := choice [literal "\n", eof]

/-- A check for a line break or the end of the input. -/
def atLineEnd : Expr := choice [lookahead (literal "\n") true, eof]

end Expr

/-- A grammar under construction. -/
structure Builder where
  atoms : Array Atom := #[]
  /-- The atom of the last expression that a name was given to. -/
  rules : SortedMap Nat := {}
  /-- The places of references and the names that they wait for. -/
  pending : List (Nat × String) := []
  /-- The name of the first rule. -/
  first : Option String := none

/-- Points a reference to an atom. -/
def Atom.pointTo (target : Nat) : Atom → Atom
  | rule _ => rule target
  | atom => atom

namespace Builder

/-- Appends an atom, and tells its index. -/
def add (builder : Builder) (atom : Atom) : Nat × Builder :=
  (builder.atoms.size, { builder with atoms := builder.atoms.push atom })

/-- Appends a reference that points nowhere yet, and lets it wait. -/
def addReference (builder : Builder) (rule : String) : Nat × Builder :=
  let (index, builder) := builder.add (.rule 0)
  (index, { builder with pending := builder.pending ++ [(index, rule)] })

end Builder

namespace Expr

mutual

/-- Appends the atoms of an expression, and tells the index of its own one. -/
def build : Expr → Builder → Nat × Builder
  | literal text, builder => builder.add (.literal text)
  | regex pattern, builder => builder.add (.regex pattern)
  | reference rule, builder => builder.addReference rule
  | sequence parts, builder =>
    let (indices, builder) := buildAll parts builder
    builder.add (.sequence indices)
  | choice options, builder =>
    let (indices, builder) := buildAll options builder
    builder.add (.choice indices)
  | repetition inner least most, builder =>
    let (index, builder) := inner.build builder
    builder.add (.repetition index least most)
  | capture inner label, builder =>
    let (index, builder) := inner.build builder
    builder.add (.capture label index)
  | lookahead inner positive, builder =>
    let (index, builder) := inner.build builder
    builder.add (.lookahead index positive)
  | flat inner, builder =>
    let (index, builder) := inner.build builder
    builder.add (.flat index)

def buildAll : List Expr → Builder → List Nat × Builder
  | [], builder => ([], builder)
  | first :: rest, builder =>
    let (index, builder) := first.build builder
    let (indices, builder) := buildAll rest builder
    (index :: indices, builder)

end

end Expr

namespace Builder

/-- Adds a rule. The first one of all gives the root its name. -/
def rule (builder : Builder) (name : String) (body : Expr) : Builder :=
  let (top, builder) := body.build builder
  { builder with
    rules := builder.rules.insert name top, first := builder.first.or (some name) }

def ofRules (rules : Rules) : Builder :=
  rules.foldl (fun builder rule => builder.rule rule.1 rule.2) {}

/-- Fills in one reference that waits. -/
def resolve (rules : SortedMap Nat) (atoms : Array Atom) (reference : Nat × String) :
    Except GrammarFault (Array Atom) :=
  match rules.get? reference.2 with
  | some target => .ok (atoms.modify reference.1 (.pointTo target))
  | none => .error (.undefinedRule reference.2)

/-- Fills in the references that wait, in some order, and checks the grammar. -/
def finish (builder : Builder) (order : List (Nat × String)) : Except GrammarFault Grammar :=
  match order.foldlM (resolve builder.rules) builder.atoms with
  | .error fault => .error fault
  | .ok atoms =>
    match builder.first.bind builder.rules.get? with
    | none => .error .noRules
    | some root => Grammar.checked { atoms, root, rules := builder.rules }

end Builder

/-- Builds a grammar from named expressions. The first one is the root. -/
def Grammar.build (rules : Rules) : Except GrammarFault Grammar :=
  let builder := Builder.ofRules rules
  builder.finish builder.pending

end Reflow
