import Mathlib.Algebra.Group.Nat.Defs
import Reflow.Parsing.Tree
import Reflow.Proofs.Place

/-!
# Stored trees

Pools only grow, and a node refers to nothing but entries that were there when it was stored. So the
tree that a node denotes is settled once and for all: `Keeps.grow` says that it stays the same in
every later state of the pools, and `Keeps.tree_eq` that `Arena.tree` looks deep enough to see it.
-/

namespace Reflow

open List Option

open Text (Span byteLength)

/-- An extent holds a span that ends below 2^32 as it is. -/
theorem Extent.span_ofSpan {span : Span} (ordered : span.start ≤ span.stop)
    (small : span.stop < 2 ^ 32) : (ofSpan span).span = span := by
  have start : span.start % 2 ^ 32 = span.start := Nat.mod_eq_of_lt (by omega)
  have length : (span.stop - span.start) % 2 ^ 32 = span.stop - span.start :=
    Nat.mod_eq_of_lt (by omega)
  simp only [ofSpan, Extent.span, Span.length, Nat.toUInt32, UInt32.toNat_ofNat', start, length,
    Nat.add_sub_cancel' ordered]

variable {arena earlier later : Arena} {trees : List Tree} {depth : Nat} {node : Node}

namespace Arena

/-- Entries stay at their places and others come behind them. -/
structure Grows (earlier later : Arena) : Prop where
  items : earlier.items.toList <+: later.items.toList
  fields : earlier.fields.toList <+: later.fields.toList
  labels : earlier.labels.toList <+: later.labels.toList
  labelText : earlier.labelText <+: later.labelText

namespace Grows

theorem refl (arena : Arena) : Grows arena arena :=
  ⟨prefix_refl _, prefix_refl _, prefix_refl _, prefix_refl _⟩

theorem trans {first second third : Arena} (front : Grows first second)
    (back : Grows second third) : Grows first third :=
  ⟨front.items.trans back.items, front.fields.trans back.fields, front.labels.trans back.labels,
    front.labelText.trans back.labelText⟩

theorem size_le (grows : Grows earlier later) :
    earlier.items.size + earlier.fields.size ≤ later.items.size + later.fields.size := by
  have items := grows.items.length_le
  have fields := grows.fields.length_le
  simp only [Array.length_toList] at items fields
  omega

end Grows

theorem getElem?_of_front {α : Type} {earlier later : Array α} {index : Nat} {entry : α}
    (grows : earlier.toList <+: later.toList) (found : earlier[index]? = some entry) :
    later[index]? = some entry := by
  rw [← Array.getElem?_toList] at found ⊢
  obtain ⟨more, whole⟩ := grows
  rw [← whole, List.getElem?_append_left (List.getElem?_eq_some_iff.mp found).1]
  exact found

theorem itemsOf_grow (grows : Grows earlier later) {extent : Extent} {first count : Nat}
    (inside : first + count ≤ earlier.items.size) :
    later.itemsOf (.list extent first count) = earlier.itemsOf (.list extent first count) := by
  obtain ⟨more, whole⟩ := grows.items
  have size : earlier.items.toList.length = earlier.items.size := Array.length_toList
  simp only [itemsOf, Array.toList_extract, extract_eq_take_drop, ← whole]
  rw [drop_append_of_le_length (by omega), take_append_of_le_length]
  rw [length_drop]
  omega

theorem labelAt?_grow (grows : Grows earlier later) {index : Nat} {label : String}
    (found : earlier.labelAt? index = some label) : later.labelAt? index = some label := by
  obtain ⟨place, stored, read⟩ := bind_eq_some_iff.mp found
  obtain ⟨inside, sliced, rfl⟩ := map_eq_some_iff.mp read
  obtain ⟨before, after, whole, start, length⟩ := Text.slice?_eq_some_iff.mp sliced
  obtain ⟨more, longer⟩ := grows.labelText
  have laterSliced : place.slice? later.labelText = some inside :=
    Text.slice?_eq_some_iff.mpr
      ⟨before, after ++ more, by rw [← longer, whole, append_assoc], start, length⟩
  rw [labelAt?, getElem?_of_front grows.labels stored, bind_eq_bind, bind_some,
    laterSliced, map_some]

theorem fieldOf_grow (grows : Grows earlier later) {part : String × Node}
    (found : earlier.fieldOf node = some part) : later.fieldOf node = some part := by
  cases node with
  | nil offset => cases found
  | text extent => cases found
  | list extent first count => cases found
  | field extent entry =>
    simp only [fieldOf] at found ⊢
    cases stored : earlier.fields[entry]? with
    | none => rw [stored] at found; cases found
    | some pair =>
      rw [stored] at found
      obtain ⟨label, named, rfl⟩ := map_eq_some_iff.mp found
      rw [getElem?_of_front grows.fields stored]
      simp only [labelAt?_grow grows named, map_some]

/-! ## Nodes and what is below them -/

/-- Everything below a node is stored, to a bounded depth. -/
def Holds (arena : Arena) : Nat → Node → Prop
  | _, .nil _ => True
  | _, .text _ => True
  | 0, .list _ first count => first + count ≤ arena.items.size ∧ count = 0
  | 0, .field _ _ => False
  | depth + 1, .list extent first count =>
    first + count ≤ arena.items.size ∧
      ∀ item ∈ arena.itemsOf (.list extent first count), arena.Holds depth item
  | depth + 1, .field extent entry =>
    ∃ label value, arena.fieldOf (.field extent entry) = some (label, value) ∧
      arena.Holds depth value

theorem itemsOf_zero (arena : Arena) (extent : Extent) (first : Nat) :
    arena.itemsOf (.list extent first 0) = [] := by
  simp [itemsOf]

/-- A node shows the same tree in every later state of the pools, and to a greater depth. -/
theorem Holds.grow (grows : Grows earlier later) {deeper : Nat} (enough : depth ≤ deeper)
    (held : earlier.Holds depth node) :
    later.Holds deeper node ∧ later.treeWithin deeper node = earlier.treeWithin depth node := by
  have larger : earlier.items.size ≤ later.items.size := by
    simpa using grows.items.length_le
  induction depth generalizing deeper node with
  | zero =>
    cases node with
    | nil _ | text _ => cases deeper <;> exact ⟨trivial, rfl⟩
    | list extent first count =>
      obtain ⟨inside, rfl⟩ := held
      have within := Nat.le_trans inside larger
      cases deeper with
      | zero => exact ⟨⟨within, rfl⟩, rfl⟩
      | succ deeper => exact ⟨⟨within, by simp [itemsOf_zero]⟩, by simp [treeWithin, itemsOf_zero]⟩
    | field extent entry => exact held.elim
  | succ depth ih =>
    obtain ⟨deeper, rfl⟩ := Nat.exists_eq_add_one.mpr (Nat.lt_of_lt_of_le depth.succ_pos enough)
    have below := Nat.le_of_succ_le_succ enough
    cases node with
    | nil _ | text _ => exact ⟨trivial, rfl⟩
    | list extent first count =>
      obtain ⟨inside, items⟩ := held
      have same : later.itemsOf (.list extent first count) =
          earlier.itemsOf (.list extent first count) := itemsOf_grow grows inside
      refine ⟨⟨Nat.le_trans inside larger, ?_⟩, ?_⟩
      · rw [same]
        exact fun item member => (ih below (items item member)).1
      · rw [treeWithin, treeWithin, same]
        congr 1
        exact map_congr_left fun item member => (ih below (items item member)).2
    | field extent entry =>
      obtain ⟨label, value, found, inner⟩ := held
      have same := fieldOf_grow grows found
      refine ⟨⟨label, value, same, (ih below inner).1⟩, ?_⟩
      simp only [treeWithin, found, same, (ih below inner).2]

/-- A node denotes a tree all of which is stored. There are at least as many entries as levels. -/
def Keeps (arena : Arena) (node : Node) (tree : Tree) : Prop :=
  ∃ depth ≤ arena.items.size + arena.fields.size,
    arena.Holds depth node ∧ arena.treeWithin depth node = tree

variable {tree : Tree} {nodes : List Node}

namespace Keeps

/-- The tree that a node denotes is the one that was stored. -/
theorem tree_eq (kept : arena.Keeps node tree) : arena.tree node = tree := by
  obtain ⟨depth, bound, held, shown⟩ := kept
  rw [Arena.tree, (held.grow (.refl _) (by omega)).2, shown]

/-- A node denotes the same tree in every later state of the pools. -/
theorem grow (kept : earlier.Keeps node tree) (grows : Grows earlier later) :
    later.Keeps node tree := by
  obtain ⟨depth, bound, held, shown⟩ := kept
  have same := held.grow grows .refl
  exact ⟨depth, Nat.le_trans bound grows.size_le, same.1, same.2.trans shown⟩

theorem nil (arena : Arena) (offset : UInt32) : arena.Keeps (.nil offset) (.nil offset.toNat) :=
  ⟨0, Nat.zero_le _, trivial, rfl⟩

theorem text (arena : Arena) (extent : Extent) : arena.Keeps (.text extent) (.text extent.span) :=
  ⟨0, Nat.zero_le _, trivial, rfl⟩

end Keeps

def KeepsAll (arena : Arena) (nodes : List Node) (trees : List Tree) : Prop :=
  ∃ depth ≤ arena.items.size + arena.fields.size,
    (∀ node ∈ nodes, arena.Holds depth node) ∧ nodes.map (arena.treeWithin depth) = trees

namespace KeepsAll

theorem nil (arena : Arena) : arena.KeepsAll [] [] :=
  ⟨0, Nat.zero_le _, by simp, rfl⟩

theorem cons (first : arena.Keeps node tree) (rest : arena.KeepsAll nodes trees) :
    arena.KeepsAll (node :: nodes) (tree :: trees) := by
  obtain ⟨low, lowBound, held, shown⟩ := first
  obtain ⟨high, highBound, heldAll, shownAll⟩ := rest
  have deeper := held.grow (.refl _) (Nat.le_max_left low high)
  have deeperAll := fun node member =>
    (heldAll node member).grow (.refl _) (Nat.le_max_right low high)
  refine ⟨max low high, Nat.max_le.mpr ⟨lowBound, highBound⟩, ?_, ?_⟩
  · intro item member
    rcases mem_cons.mp member with rfl | member
    · exact deeper.1
    · exact (deeperAll item member).1
  · rw [map_cons, deeper.2, shown, ← shownAll]
    congr 1
    exact map_congr_left fun item member => (deeperAll item member).2

theorem reverse (kept : arena.KeepsAll nodes trees) :
    arena.KeepsAll nodes.reverse trees.reverse := by
  obtain ⟨depth, bound, held, shown⟩ := kept
  refine ⟨depth, bound, fun node member => held node (mem_reverse.mp member), ?_⟩
  rw [map_reverse, shown]

end KeepsAll

/-! ## Storing -/

section

variable (arena nodes) (span : Span)

theorem grows_pushList : Grows arena (arena.pushList nodes span).1 where
  items := by simp [pushList]
  fields := prefix_refl _
  labels := prefix_refl _
  labelText := prefix_refl _

theorem itemsOf_pushList :
    (arena.pushList nodes span).1.itemsOf (arena.pushList nodes span).2 = nodes := by
  simp [pushList, itemsOf]

theorem size_pushList :
    (arena.pushList nodes span).1.items.size = arena.items.size + nodes.length ∧
      (arena.pushList nodes span).1.fields.size = arena.fields.size := by
  simp [pushList, ← Array.length_toList]

end

/-- A stored list denotes the list of what its items denote. -/
theorem keeps_pushList {arena : Arena} {trees : List Tree} (span : Span)
    (kept : arena.KeepsAll nodes trees) :
    (arena.pushList nodes span).1.Keeps (arena.pushList nodes span).2
      (.list (Extent.ofSpan span).span trees) := by
  obtain ⟨depth, bound, held, shown⟩ := kept
  have stored := arena.itemsOf_pushList nodes span
  have sizes := arena.size_pushList nodes span
  have later := fun node member => (held node member).grow (arena.grows_pushList nodes span) .refl
  cases nodes with
  | nil =>
    -- An empty list has no level below it, and the pools need not have grown.
    refine ⟨0, Nat.zero_le _, ⟨Nat.le_of_eq sizes.1.symm, rfl⟩, ?_⟩
    rw [← shown]
    rfl
  | cons node nodes =>
    have inside : depth + 1 ≤ (arena.pushList (node :: nodes) span).1.items.size +
        (arena.pushList (node :: nodes) span).1.fields.size := by
      rw [sizes.1, sizes.2, length_cons]
      omega
    refine ⟨depth + 1, inside, ⟨Nat.le_of_eq sizes.1.symm, ?_⟩, ?_⟩
    · intro item member
      exact (later item (stored ▸ member)).1
    · change Tree.list _ (List.map _ (Arena.itemsOf _ (arena.pushList (node :: nodes) span).2)) = _
      rw [stored, ← shown]
      congr 1
      exact map_congr_left fun item member => (later item member).2

/-! ## Labels -/

section

variable (arena) (label : String)

theorem grows_pushLabel : Grows arena (arena.pushLabel label).1 where
  items := prefix_refl _
  fields := prefix_refl _
  labels := by simp [pushLabel]
  labelText := prefix_append _ _

theorem labelAt?_pushLabel :
    (arena.pushLabel label).1.labelAt? (arena.pushLabel label).2 = some label := by
  have place : (arena.pushLabel label).1.labels[(arena.pushLabel label).2]? =
      some ⟨byteLength arena.labelText, byteLength arena.labelText + byteLength label.toList⟩ := by
    simp [pushLabel]
  have sliced : Span.slice?
      ⟨byteLength arena.labelText, byteLength arena.labelText + byteLength label.toList⟩
      (arena.labelText ++ label.toList) = some label.toList :=
    Text.slice?_eq_some_iff.mpr
      ⟨arena.labelText, [], (append_nil _).symm, rfl, Nat.add_sub_cancel_left _ _⟩
  rw [labelAt?, place, Option.bind_eq_bind, Option.bind_some]
  exact (congrArg (Option.map String.ofList) sliced).trans (congrArg some String.ofList_toList)

/-- Interning stores a label at most, and the index it gives is the label's. -/
theorem intern_spec :
    Grows arena (arena.intern label).1 ∧
      (arena.intern label).1.labelAt? (arena.intern label).2 = some label ∧
      (arena.intern label).1.fields = arena.fields ∧
      (arena.intern label).1.items = arena.items := by
  have pushed := arena.labelAt?_pushLabel label
  unfold intern
  split
  · split
    · next found => exact ⟨.refl arena, found, rfl, rfl⟩
    · exact ⟨arena.grows_pushLabel label, pushed, rfl, rfl⟩
  · exact ⟨arena.grows_pushLabel label, pushed, rfl, rfl⟩

variable (value : Node) (span : Span)

theorem grows_pushEntry :
    Grows (arena.intern label).1 (arena.pushField label value span).1 :=
  ⟨prefix_refl _, by simp [pushField], prefix_refl _, prefix_refl _⟩

theorem grows_pushField : Grows arena (arena.pushField label value span).1 :=
  (arena.intern_spec label).1.trans (arena.grows_pushEntry label value span)

theorem fieldOf_pushField :
    (arena.pushField label value span).1.fieldOf (arena.pushField label value span).2 =
      some (label, value) := by
  have named : labelAt? { (arena.intern label).1 with
      fields := (arena.intern label).1.fields.push ((arena.intern label).2, value) }
      (arena.intern label).2 = some label := (arena.intern_spec label).2.1
  simp [pushField, fieldOf, named]

end

/-- A stored capture denotes the capture of what its value denotes. -/
theorem keeps_pushField {value : Node} (label : String) (span : Span)
    (kept : arena.Keeps value tree) :
    (arena.pushField label value span).1.Keeps (arena.pushField label value span).2
      (.field (Extent.ofSpan span).span label tree) := by
  obtain ⟨depth, bound, held, shown⟩ := kept
  have stored := arena.fieldOf_pushField label value span
  have later := held.grow (arena.grows_pushField label value span) .refl
  have inside : depth + 1 ≤ (arena.pushField label value span).1.items.size +
      (arena.pushField label value span).1.fields.size := by
    obtain ⟨_, _, fields, items⟩ := arena.intern_spec label
    simp only [pushField, Array.size_push, fields, items]
    omega
  refine ⟨depth + 1, inside, ⟨label, value, stored, later.1⟩, ?_⟩
  have node : (arena.pushField label value span).2 =
      .field (.ofSpan span) (arena.pushField label value span).1.fields.size.pred := by
    simp [pushField]
  rw [node] at stored ⊢
  simp only [treeWithin, stored, later.2, shown]

end Arena

/-! ## Trees in 32-bit words -/

namespace Tree

mutual

/-- A tree with the numbers of its spans cut to 32 bits, as nodes hold them. -/
def stored : Tree → Tree
  | nil offset => nil offset.toUInt32.toNat
  | text span => text (Extent.ofSpan span).span
  | list span items => list (Extent.ofSpan span).span (storedAll items)
  | field span label value => field (Extent.ofSpan span).span label value.stored

def storedAll : List Tree → List Tree
  | [] => []
  | first :: rest => first.stored :: storedAll rest

end

theorem storedAll_eq_map (trees : List Tree) : storedAll trees = trees.map stored := by
  induction trees with
  | nil => rfl
  | cons first rest ih => rw [storedAll, ih, map_cons]

end Tree

end Reflow
