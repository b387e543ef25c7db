import Reflow.Text.Offset

/-!
# Node storage

A parse tree is stored in pools that only grow. A node is a small value: the extent of its match
and, if it has parts, their place in a pool. Labels are stored once each, one behind the other in one
text; a fingerprint finds an earlier copy, and two labels that share a fingerprint are told apart by
comparing them.

Only extents are 32-bit words here. Places in the pools and counts, which are stored in such words as
well, are numbers without a bound; that nothing is lost by cutting them is shown for pools of less
than 2^32 entries (`Arena.storeAll_resolves`).
-/

namespace Reflow

open Text (Span byteLength)

/-- The extent of a match, in 32-bit words. -/
structure Extent where
  offset : UInt32
  length : UInt32
  deriving DecidableEq, Repr

def Extent.ofSpan (span : Span) : Extent := ⟨span.start.toUInt32, span.length.toUInt32⟩

def Extent.span (extent : Extent) : Span :=
  ⟨extent.offset.toNat, extent.offset.toNat + extent.length.toNat⟩

inductive Node where
  /-- A check that consumed nothing. -/
  | nil (offset : UInt32)
  /-- A piece of the input. -/
  | text (extent : Extent)
  /-- Nodes one after the other: consecutive entries of the item pool. -/
  | list (extent : Extent) (first count : Nat)
  /-- A labelled node: an entry of the field pool. -/
  | field (extent : Extent) (entry : Nat)
  deriving DecidableEq, Repr

namespace Node

def extent : Node → Extent
  | nil offset => ⟨offset, 0⟩
  | text extent | list extent _ _ | field extent _ => extent

def span (node : Node) : Span := node.extent.span

def isEmpty (node : Node) : Bool := node.extent.length == 0

def isNil : Node → Bool
  | nil _ => true
  | _ => false

def isField : Node → Bool
  | field _ _ => true
  | _ => false

end Node

/-- Pools of nodes and labels. -/
structure Arena where
  /-- The characters of the labels, each stored once unless fingerprints collide. -/
  labelText : Text := []
  /-- Where the labels stand in their text. -/
  labels : Array Span := #[]
  /-- The first label stored under each fingerprint. -/
  slots : List (UInt64 × Nat) := []
  /-- The items of lists. -/
  items : Array Node := #[]
  /-- Labelled nodes: the index of the label, and the value. -/
  fields : Array (Nat × Node) := #[]
  /-- Finds earlier copies of a label. -/
  fingerprint : String → UInt64 := hash

namespace Arena

def size (arena : Arena) : Nat := arena.items.size

def isEmpty (arena : Arena) : Bool := arena.items.isEmpty && arena.fields.isEmpty

/-- The label at a place of the label pool. -/
def labelAt? (arena : Arena) (index : Nat) : Option String := do
  let place ← arena.labels[index]?
  (place.slice? arena.labelText).map String.ofList

/-- Stores a label under a fingerprint that may be taken already; the first label keeps it. -/
def pushLabel (arena : Arena) (label : String) : Arena × Nat :=
  let index := arena.labels.size
  let start := byteLength arena.labelText
  let key := arena.fingerprint label
  ({ arena with
      labelText := arena.labelText ++ label.toList
      labels := arena.labels.push ⟨start, start + byteLength label.toList⟩
      slots :=
        if (arena.slots.lookup key).isSome then arena.slots else (key, index) :: arena.slots },
    index)

/-- The index of a label, which is stored unless a copy is found. -/
def intern (arena : Arena) (label : String) : Arena × Nat :=
  match arena.slots.lookup (arena.fingerprint label) with
  | some index =>
    if arena.labelAt? index = some label then (arena, index) else arena.pushLabel label
  | none => arena.pushLabel label

def pushList (arena : Arena) (nodes : List Node) (span : Span) : Arena × Node :=
  let first := arena.items.size
  ({ arena with items := arena.items ++ nodes }, .list (.ofSpan span) first nodes.length)

def pushField (arena : Arena) (label : String) (value : Node) (span : Span) : Arena × Node :=
  let (arena, key) := arena.intern label
  let entry := arena.fields.size
  ({ arena with fields := arena.fields.push (key, value) }, .field (.ofSpan span) entry)

/-- The items of a list; other nodes have none. -/
def itemsOf (arena : Arena) : Node → List Node
  | .list _ first count => (arena.items.extract first (first + count)).toList
  | _ => []

/-- The label and the value of a labelled node. -/
def fieldOf (arena : Arena) : Node → Option (String × Node)
  | .field _ entry =>
    match arena.fields[entry]? with
    | some (key, value) => (arena.labelAt? key).map (·, value)
    | none => none
  | _ => none

end Arena

end Reflow
