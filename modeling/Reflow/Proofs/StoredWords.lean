import Mathlib.Data.List.Forall2
import Reflow.Proofs.StoredTree

/-!
# Nodes stored in 32-bit words

Every number in the pools is held by a 32-bit word. As long as no pool and no text of labels reaches
2^32, all of them fit, so nothing is lost by cutting them to 32 bits. A node that was returned then
leads to what it was stored with after any further calls, whatever the fingerprints of labels are
(`storeAll_resolves`).
-/

namespace Reflow

open List

open Text (Span byteLength)

def toWord (n : Nat) : Nat := n.toUInt32.toNat

theorem toWord_of_lt {n : Nat} (small : n < 2 ^ 32) : toWord n = n :=
  Nat.mod_eq_of_lt small

/-- A node with its places in the pools cut to 32 bits. -/
def Node.cut : Node → Node
  | nil offset => nil offset
  | text extent => text extent
  | list extent first count => list extent (toWord first) (toWord count)
  | field extent entry => field extent (toWord entry)

/-- The places of a node fit in 32-bit words. -/
def Node.InWords : Node → Prop
  | nil _ | text _ => True
  | list _ first count => first < 2 ^ 32 ∧ count < 2 ^ 32
  | field _ entry => entry < 2 ^ 32

theorem Node.InWords.cut_eq {node : Node} (fits : node.InWords) : node.cut = node := by
  cases node with
  | nil | text => rfl
  | list extent first count => rw [cut, toWord_of_lt fits.1, toWord_of_lt fits.2]
  | field extent entry => rw [cut, toWord_of_lt fits]

/-- A call that stores a node. -/
inductive Store where
  | list (nodes : List Node) (span : Span)
  | field (label : String) (value : Node) (span : Span)

def Store.nodes : Store → List Node
  | list nodes _ => nodes
  | field _ value _ => [value]

namespace Arena

def cut (arena : Arena) : Arena :=
  { arena with
    labels := arena.labels.map fun place => (Extent.ofSpan place).span
    slots := arena.slots.map fun slot => (slot.1, toWord slot.2)
    items := arena.items.map Node.cut
    fields := arena.fields.map fun field => (toWord field.1, field.2.cut) }

def store (arena : Arena) : Store → Arena × Node
  | .list nodes span => arena.pushList nodes span
  | .field label value span => arena.pushField label value span

/-- Stores nodes one after the other, in 32-bit words: the pools at the end, and the node that each
call returned. -/
def storeAll (arena : Arena) : List Store → Arena × List Node
  | [] => (arena, [])
  | call :: calls =>
    let rest := (arena.store call).1.cut.storeAll calls
    (rest.1, (arena.store call).2.cut :: rest.2)

/-- The size of the largest pool, the bytes of the labels included. -/
def room (arena : Arena) : Nat :=
  max (max arena.items.size arena.fields.size) (max arena.labels.size (byteLength arena.labelText))

/-- A node leads to what a call stored: its items, which lie within their pool, or its label and its
value. `fieldOf` finds nothing if a lookup for it is out of range or cuts a character. -/
def Resolves (arena : Arena) : Store → Node → Prop
  | .list nodes span, node =>
    arena.itemsOf node = nodes ∧ ∃ first, node = .list (.ofSpan span) first nodes.length ∧
      first + nodes.length ≤ arena.items.size
  | .field label value span, node =>
    arena.fieldOf node = some (label, value) ∧ ∃ entry, node = .field (.ofSpan span) entry

/-! ## One call -/

theorem Grows.room_le {earlier later : Arena} (grows : Grows earlier later) :
    earlier.room ≤ later.room := by
  have items := grows.items.length_le
  have fields := grows.fields.length_le
  have labels := grows.labels.length_le
  have bytes : byteLength earlier.labelText ≤ byteLength later.labelText := by
    obtain ⟨more, longer⟩ := grows.labelText
    rw [← longer, Text.byteLength_append]
    omega
  simp only [Array.length_toList] at items fields labels
  simp only [room]
  omega

theorem room_cut (arena : Arena) : arena.cut.room = arena.room := by
  simp [room, cut]

theorem grows_store (arena : Arena) (call : Store) : Grows arena (arena.store call).1 := by
  cases call with
  | list nodes span => exact arena.grows_pushList nodes span
  | field label value span => exact arena.grows_pushField label value span

theorem resolves_store (arena : Arena) (call : Store) :
    (arena.store call).1.Resolves call (arena.store call).2 := by
  cases call with
  | list nodes span =>
    have inside := (arena.size_pushList nodes span).1
    exact ⟨arena.itemsOf_pushList nodes span, arena.items.size, rfl, Nat.le_of_eq inside.symm⟩
  | field label value span =>
    exact ⟨arena.fieldOf_pushField label value span, (arena.intern label).1.fields.size, rfl⟩

theorem Resolves.grow {earlier later : Arena} {call : Store} {node : Node}
    (resolved : earlier.Resolves call node) (grows : Grows earlier later) :
    later.Resolves call node := by
  cases call with
  | list nodes span =>
    obtain ⟨found, first, rfl, inside⟩ := resolved
    have larger := grows.items.length_le
    simp only [Array.length_toList] at larger
    exact ⟨(itemsOf_grow grows inside).trans found, first, rfl, Nat.le_trans inside larger⟩
  | field label value span => exact ⟨fieldOf_grow grows resolved.1, resolved.2⟩

/-! ## Numbers that fit -/

/-- All numbers in the pools fit in 32-bit words. -/
structure InWords (arena : Arena) : Prop where
  labels : ∀ place ∈ arena.labels, place.start ≤ place.stop ∧ place.stop < 2 ^ 32
  slots : ∀ slot ∈ arena.slots, slot.2 < 2 ^ 32
  items : ∀ node ∈ arena.items, node.InWords
  fields : ∀ field ∈ arena.fields, field.1 < 2 ^ 32 ∧ field.2.InWords

namespace InWords

variable {arena : Arena} (fits : arena.InWords)

include fits

theorem cut_eq : arena.cut = arena := by
  have labels : arena.labels.map (fun place => (Extent.ofSpan place).span) = arena.labels :=
    (Array.map_congr_left fun place member =>
      Extent.span_ofSpan (fits.labels place member).1 (fits.labels place member).2).trans
      (Array.map_id _)
  have slots : arena.slots.map (fun slot => (slot.1, toWord slot.2)) = arena.slots :=
    (map_congr_left fun slot member =>
      congrArg (slot.1, ·) (toWord_of_lt (fits.slots slot member))).trans (map_id _)
  have items : arena.items.map Node.cut = arena.items :=
    (Array.map_congr_left fun node member => (fits.items node member).cut_eq).trans
      (Array.map_id _)
  have fields : arena.fields.map (fun field => (toWord field.1, field.2.cut)) = arena.fields :=
    (Array.map_congr_left fun field member => congrArg₂ Prod.mk
      (toWord_of_lt (fits.fields field member).1) (fits.fields field member).2.cut_eq).trans
      (Array.map_id _)
  rw [cut, labels, slots, items, fields]

theorem pushLabel {label : String} (small : (arena.pushLabel label).1.room < 2 ^ 32) :
    (arena.pushLabel label).1.InWords ∧ (arena.pushLabel label).2 < 2 ^ 32 := by
  simp only [room, Arena.pushLabel, Array.size_push, Text.byteLength_append] at small
  have index : arena.labels.size < 2 ^ 32 := by omega
  refine ⟨⟨?_, ?_, fits.items, fits.fields⟩, index⟩
  · intro place member
    rcases Array.mem_push.mp member with member | rfl
    · exact fits.labels place member
    · have stop : byteLength arena.labelText + byteLength label.toList < 2 ^ 32 := by omega
      exact ⟨Nat.le_add_right _ _, stop⟩
  · intro slot member
    simp only [Arena.pushLabel] at member
    split at member
    · exact fits.slots slot member
    · rcases mem_cons.mp member with rfl | member
      · exact index
      · exact fits.slots slot member

theorem intern {label : String} (small : (arena.intern label).1.room < 2 ^ 32) :
    (arena.intern label).1.InWords ∧ (arena.intern label).2 < 2 ^ 32 := by
  unfold Arena.intern at small ⊢
  split at small
  · next index found =>
    obtain ⟨front, back, split, _⟩ := lookup_eq_some_iff.mp found
    have listed : (arena.fingerprint label, index) ∈ arena.slots := by simp [split]
    split at small
    · next same => rw [if_pos same]; exact ⟨fits, fits.slots _ listed⟩
    · next other => rw [if_neg other]; exact fits.pushLabel small
  · exact fits.pushLabel small

/-- Storing keeps all numbers in 32-bit words as long as the pools stay below 2^32. -/
theorem store {call : Store} (given : ∀ node ∈ call.nodes, node.InWords)
    (small : (arena.store call).1.room < 2 ^ 32) :
    (arena.store call).1.InWords ∧ (arena.store call).2.InWords := by
  cases call with
  | list nodes span =>
    have sizes := (arena.size_pushList nodes span).1
    have below : (arena.pushList nodes span).1.items.size < 2 ^ 32 :=
      Nat.lt_of_le_of_lt (by simp only [room, Arena.store]; omega) small
    refine ⟨⟨fits.labels, fits.slots, ?_, fits.fields⟩, ?_⟩
    · intro node member
      rw [← Array.mem_toList_iff, Arena.store, pushList, Array.toList_appendList] at member
      rcases mem_append.mp member with member | member
      · exact fits.items node (Array.mem_toList_iff.mp member)
      · exact given node member
    · exact ⟨by omega, by omega⟩
  | field label value span =>
    have grows := (arena.grows_pushEntry label value span).room_le
    obtain ⟨interned, key⟩ := fits.intern (Nat.lt_of_le_of_lt grows small)
    have entry : (arena.intern label).1.fields.size < 2 ^ 32 := by
      simp only [room, Arena.store, pushField, Array.size_push] at small
      omega
    refine ⟨⟨interned.labels, interned.slots, interned.items, ?_⟩, entry⟩
    intro field member
    rcases Array.mem_push.mp member with member | rfl
    · exact interned.fields field member
    · exact ⟨key, given value mem_cons_self⟩

end InWords

/-! ## Any number of calls -/

theorem room_le_storeAll (arena : Arena) (calls : List Store) :
    arena.room ≤ (arena.storeAll calls).1.room := by
  induction calls generalizing arena with
  | nil => exact Nat.le_refl _
  | cons call calls ih =>
    have here := (arena.grows_store call).room_le
    rw [← room_cut (arena.store call).1] at here
    exact Nat.le_trans here (ih _)

/-- A run of calls that stays below 2^32 keeps what was stored, and its nodes lead to it. -/
theorem InWords.storeAll {arena : Arena} (fits : arena.InWords) {calls : List Store}
    (given : ∀ call ∈ calls, ∀ node ∈ call.nodes, node.InWords)
    (small : (arena.storeAll calls).1.room < 2 ^ 32) :
    (arena.storeAll calls).1.InWords ∧ Grows arena (arena.storeAll calls).1 ∧
      Forall₂ (arena.storeAll calls).1.Resolves calls (arena.storeAll calls).2 := by
  induction calls generalizing arena with
  | nil => exact ⟨fits, .refl arena, .nil⟩
  | cons call calls ih =>
    have below : (arena.store call).1.room < 2 ^ 32 := by
      rw [← room_cut]
      exact Nat.lt_of_le_of_lt (room_le_storeAll _ calls) small
    obtain ⟨words, node⟩ := fits.store (given call mem_cons_self) below
    -- Nothing is lost by the cut, so the run goes on from the pools as they were stored.
    have run : arena.storeAll (call :: calls) = (((arena.store call).1.storeAll calls).1,
        (arena.store call).2 :: ((arena.store call).1.storeAll calls).2) := by
      rw [Arena.storeAll, words.cut_eq, node.cut_eq]
    rw [run] at small ⊢
    obtain ⟨last, later, resolved⟩ := ih words
      (forall_mem_cons.mp given).2 small
    exact ⟨last, (arena.grows_store call).trans later,
      .cons ((arena.resolves_store call).grow later) resolved⟩

theorem storeAll_append (arena : Arena) (earlier later : List Store) :
    (arena.storeAll (earlier ++ later)).1 = ((arena.storeAll earlier).1.storeAll later).1 := by
  induction earlier generalizing arena with
  | nil => rfl
  | cons call calls ih => exact ih _

/-- Whatever is stored and however labels collide, each node that was returned leads to what it was
stored with after any later calls, as long as pools and labels stay below 2^32. -/
theorem storeAll_resolves (fingerprint : String → UInt64) (earlier later : List Store)
    (given : ∀ call ∈ earlier ++ later, ∀ node ∈ call.nodes, node.InWords)
    (small : (storeAll { fingerprint } (earlier ++ later)).1.room < 2 ^ 32) :
    Forall₂ (storeAll { fingerprint } (earlier ++ later)).1.Resolves earlier
      (storeAll { fingerprint } earlier).2 := by
  have empty : InWords { fingerprint } := ⟨by simp, by simp, by simp, by simp⟩
  rw [storeAll_append] at small ⊢
  have before := Nat.lt_of_le_of_lt (room_le_storeAll _ later) small
  obtain ⟨fits, _, resolved⟩ := empty.storeAll
    (fun call member => given call (mem_append_left _ member)) before
  obtain ⟨_, grows, _⟩ := fits.storeAll
    (fun call member => given call (mem_append_right _ member)) small
  exact resolved.imp fun _ _ found => found.grow grows

/-- Two labelled nodes and their list. -/
def labelledPair : List Store :=
  [.field "name" (.text ⟨0, 2⟩) ⟨0, 2⟩, .field "é" (.nil 2) ⟨2, 2⟩,
    .list [.field ⟨0, 2⟩ 0, .field ⟨2, 0⟩ 1] ⟨0, 2⟩]

/-- A node with the label of the second one. -/
def labelledAgain : List Store := [.field "é" (.text ⟨2, 3⟩) ⟨2, 5⟩]

/-- With the same fingerprint for all labels, the second label is never found and stored twice. -/
theorem storeAll_collidingLabels :
    (storeAll { fingerprint := fun _ => 0 } (labelledPair ++ labelledAgain)).1.room < 2 ^ 32 ∧
      Forall₂
        (storeAll { fingerprint := fun _ => 0 } (labelledPair ++ labelledAgain)).1.Resolves
        labelledPair (storeAll { fingerprint := fun _ => 0 } labelledPair).2 := by
  have given : ∀ call ∈ labelledPair ++ labelledAgain, ∀ node ∈ call.nodes, node.InWords := by
    simp [labelledPair, labelledAgain, Store.nodes, Node.InWords]
  have small : (storeAll { fingerprint := fun _ => 0 }
      (labelledPair ++ labelledAgain)).1.room < 2 ^ 32 := by decide +kernel
  exact ⟨small, storeAll_resolves _ labelledPair labelledAgain given small⟩

end Arena

end Reflow
