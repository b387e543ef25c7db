import Reflow.Parsing.Arena
import Reflow.Text.Quoted

/-!
# Parse trees

The tree that a stored node denotes, and the two ways to look labelled parts up in it: by name, and
all of them in order. Both look through lists but not into labelled parts.
-/

namespace Reflow

open Text (Span)

inductive Tree where
  | nil (offset : Nat)
  | text (span : Span)
  | list (span : Span) (items : List Tree)
  | field (span : Span) (label : String) (value : Tree)
  deriving Repr

/-- The tree that a node denotes, to a bounded depth. -/
def Arena.treeWithin (arena : Arena) : Nat → Node → Tree
  | _, .nil offset => .nil offset.toNat
  | _, .text extent => .text extent.span
  | 0, .list extent _ _ => .list extent.span []
  | 0, .field extent _ => .text extent.span
  | depth + 1, .list extent first count =>
    .list extent.span ((arena.itemsOf (.list extent first count)).map (arena.treeWithin depth))
  | depth + 1, .field extent entry =>
    match arena.fieldOf (.field extent entry) with
    | some (label, value) => .field extent.span label (arena.treeWithin depth value)
    | none => .text extent.span

/-- The tree that a node denotes. Every level below the root is an entry of a pool, so the size of
the pools bounds the depth. -/
def Arena.tree (arena : Arena) (node : Node) : Tree :=
  arena.treeWithin (arena.items.size + arena.fields.size + 1) node

namespace Tree

def span : Tree → Span
  | nil offset => ⟨offset, offset⟩
  | text span | list span _ | field span _ _ => span

def textIn (tree : Tree) (input : Text) : Text := tree.span.slice input

def isNil : Tree → Bool
  | nil _ => true
  | _ => false

def isField : Tree → Bool
  | field _ _ _ => true
  | _ => false

def isEmpty (tree : Tree) : Bool := tree.span.length == 0

def label? : Tree → Option String
  | field _ label _ => some label
  | _ => none

/-- The value of a labelled tree, and any other tree itself. -/
def body : Tree → Tree
  | field _ _ value => value
  | tree => tree

mutual

/-- The value of the first part with a label. -/
def find? (name : String) : Tree → Option Tree
  | field _ label value => if label = name then some value else none
  | list _ items => findIn? name items
  | nil _ | text _ => none

def findIn? (name : String) : List Tree → Option Tree
  | [] => none
  | first :: rest =>
    match find? name first with
    | some value => some value
    | none => findIn? name rest

end

mutual

/-- The labelled parts, in order. -/
def collect : Tree → List Tree
  | field span label value => [field span label value]
  | list _ items => collectAll items
  | nil _ | text _ => []

def collectAll : List Tree → List Tree
  | [] => []
  | first :: rest => collect first ++ collectAll rest

end

/-- The value captured under a label directly inside a tree. -/
def attr? (tree : Tree) (name : String) : Option Tree := find? name tree.body

/-- The text captured under a label directly inside a tree, empty if there is none. -/
def attrText (tree : Tree) (name : String) (input : Text) : Text :=
  match tree.attr? name with
  | some value => value.textIn input
  | none => []

/-- The captures directly inside a tree, in order. -/
def captures (tree : Tree) : List Tree := collect tree.body

/-- How a tree is shown: its label, its span and its text. -/
def describe (tree : Tree) (input : Text) : String :=
  let span := tree.span
  let text := Text.quoted (tree.textIn input)
  (tree.label?.getD "") ++ s!"@{span.start}..{span.stop}: " ++ text

end Tree

end Reflow
