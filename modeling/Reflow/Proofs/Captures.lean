import Reflow.Proofs.Lists
import Reflow.Proofs.Reader

/-!
# Captures of what was read

The labelled pieces of a part, looked up as those of a tree are: by name, and all of them in order.
Where a part stands in an input, what is found in its tree has the text that is found in the part,
so documents can be read off parts, and spans play no role.
-/

namespace Reflow

open Text List Option

namespace Text

/-- A piece stands in a text at an offset. -/
def StandsAt (piece text : Text) (offset : Nat) : Prop :=
  ∃ before after, text = before ++ piece ++ after ∧ offset = byteLength before

namespace StandsAt

variable {first second text : Text} {offset : Nat}

theorem whole (text : Text) : StandsAt text text 0 := ⟨[], [], by simp, rfl⟩

theorem left (stands : StandsAt (first ++ second) text offset) : StandsAt first text offset := by
  obtain ⟨before, after, rfl, rfl⟩ := stands
  exact ⟨before, second ++ after, by simp, rfl⟩

theorem right (stands : StandsAt (first ++ second) text offset) :
    StandsAt second text (offset + byteLength first) := by
  obtain ⟨before, after, rfl, rfl⟩ := stands
  exact ⟨before ++ first, after, by simp, by simp⟩

end StandsAt

end Text

namespace Part

mutual

def find? (name : String) : Part → Option Part
  | field label value => if label = name then some value else none
  | list items => findIn? name items
  | nil | text _ => none

def findIn? (name : String) : List Part → Option Part
  | [] => none
  | first :: rest =>
    match find? name first with
    | some value => some value
    | none => findIn? name rest

end

mutual

def collect : Part → List Part
  | field label value => [field label value]
  | list items => collectAll items
  | nil | text _ => []

def collectAll : List Part → List Part
  | [] => []
  | first :: rest => collect first ++ collectAll rest

end

def label? : Part → Option String
  | field label _ => some label
  | _ => none

def body : Part → Part
  | field _ value => value
  | part => part

def attrText (part : Part) (name : String) : Text :=
  match find? name part.body with
  | some value => value.chars
  | none => []

def captures (part : Part) : List Part := collect part.body

attribute [simp] find? findIn? collect collectAll

@[simp] theorem label?_field (label : String) (part : Part) :
    (field label part).label? = some label := rfl

@[simp] theorem body_field (label : String) (part : Part) : (field label part).body = part := rfl

theorem collectAll_eq_flatMap (parts : List Part) : collectAll parts = parts.flatMap collect := by
  induction parts with
  | nil => rw [collectAll, flatMap_nil]
  | cons first rest ih => rw [collectAll, flatMap_cons, ih]

mutual

theorem eq_field_of_mem_collect {piece : Part} : (part : Part) → piece ∈ part.collect →
    ∃ label value, piece = field label value
  | nil, member | text _, member => by simp [collect] at member
  | list items, member => by
    rw [collect] at member
    exact eq_field_of_mem_collectAll items member
  | field label value, member => by
    rw [collect, mem_singleton] at member
    exact ⟨label, value, member⟩

theorem eq_field_of_mem_collectAll {piece : Part} : (parts : List Part) →
    piece ∈ collectAll parts → ∃ label value, piece = field label value
  | [], member => by simp [collectAll] at member
  | first :: rest, member => by
    rw [collectAll] at member
    rcases mem_append.mp member with here | there
    · exact eq_field_of_mem_collect first here
    · exact eq_field_of_mem_collectAll rest there

end

/-! ## The tree of a part -/

theorem span_treeAt (part : Part) (offset : Nat) :
    (part.treeAt offset).span = ⟨offset, offset + byteLength part.chars⟩ := by
  cases part <;> simp only [treeAt, chars, Tree.span, byteLength_nil, Nat.add_zero]

theorem label?_treeAt (part : Part) (offset : Nat) :
    (part.treeAt offset).label? = part.label? := by
  cases part <;> simp only [treeAt] <;> rfl

theorem body_treeAt (part : Part) (offset : Nat) :
    (part.treeAt offset).body = part.body.treeAt offset := by
  cases part <;> simp only [treeAt, Tree.body, body]

theorem chars_body (part : Part) : part.body.chars = part.chars := by
  cases part <;> simp only [body, chars]

variable {input : Text} {part : Part} {offset : Nat} {β : Type}

theorem textIn_treeAt (stands : StandsAt part.chars input offset) :
    (part.treeAt offset).textIn input = part.chars := by
  obtain ⟨before, after, rfl, rfl⟩ := stands
  rw [Tree.textIn, span_treeAt]
  exact slice_append before part.chars after

mutual

theorem find?_treeAt (name : String) : (part : Part) → {offset : Nat} →
    StandsAt part.chars input offset →
    ((part.treeAt offset).find? name).map (·.textIn input) = (part.find? name).map chars
  | nil, _, _ | text _, _, _ => by simp only [treeAt, Tree.find?, find?, map_none]
  | list items, _, stands => by
    simp only [treeAt, Tree.find?, find?]
    simp only [chars] at stands
    exact findIn?_treesAt name items stands
  | field label value, _, stands => by
    simp only [treeAt, Tree.find?, find?]
    simp only [chars] at stands
    split
    · simp only [map_some, textIn_treeAt stands]
    · rfl

theorem findIn?_treesAt (name : String) : (parts : List Part) → {offset : Nat} →
    StandsAt (charsAll parts) input offset →
    (Tree.findIn? name (treesAt offset parts)).map (·.textIn input) =
      (findIn? name parts).map chars
  | [], _, _ => by simp only [treesAt, Tree.findIn?, findIn?, map_none]
  | first :: rest, offset, stands => by
    simp only [charsAll] at stands
    have here := find?_treeAt name first stands.left
    have there := findIn?_treesAt name rest stands.right
    simp only [treesAt, Tree.findIn?, findIn?]
    cases found : (first.treeAt offset).find? name with
    | none =>
      rw [found] at here
      rw [map_eq_none_iff.mp here.symm]
      exact there
    | some value =>
      rw [found, map_some] at here
      obtain ⟨part, same, text⟩ := map_eq_some_iff.mp here.symm
      rw [same]
      exact congrArg some text.symm

end

theorem attrText_treeAt (name : String) (stands : StandsAt part.chars input offset) :
    (part.treeAt offset).attrText name input = part.attrText name := by
  rw [← chars_body] at stands
  have found := find?_treeAt name part.body stands
  unfold Tree.attrText Tree.attr? attrText
  rw [body_treeAt]
  cases tree : (part.body.treeAt offset).find? name with
  | none =>
    rw [tree] at found
    rw [map_eq_none_iff.mp found.symm]
  | some value =>
    rw [tree, map_some] at found
    obtain ⟨piece, same, text⟩ := map_eq_some_iff.mp found.symm
    rw [same]
    exact text.symm

mutual

theorem map_collect {β : Type} {ofTree : Tree → β} {ofPart : Part → β}
    (agree : ∀ part offset, StandsAt part.chars input offset →
      ofTree (part.treeAt offset) = ofPart part) :
    (part : Part) → {offset : Nat} → StandsAt part.chars input offset →
    ((part.treeAt offset).collect).map ofTree = part.collect.map ofPart
  | nil, _, _ | text _, _, _ => by simp only [treeAt, Tree.collect, collect, map_nil]
  | list items, _, stands => by
    simp only [treeAt, Tree.collect, collect]
    simp only [chars] at stands
    exact map_collectAll agree items stands
  | field label value, offset, stands => by
    have same := agree _ _ stands
    simp only [treeAt] at same
    simp only [treeAt, Tree.collect, collect, map_cons, map_nil, same]

theorem map_collectAll {β : Type} {ofTree : Tree → β} {ofPart : Part → β}
    (agree : ∀ part offset, StandsAt part.chars input offset →
      ofTree (part.treeAt offset) = ofPart part) :
    (parts : List Part) → {offset : Nat} → StandsAt (charsAll parts) input offset →
    (Tree.collectAll (treesAt offset parts)).map ofTree = (collectAll parts).map ofPart
  | [], _, _ => by simp only [treesAt, Tree.collectAll, collectAll, map_nil]
  | first :: rest, _, stands => by
    simp only [charsAll] at stands
    simp only [treesAt, Tree.collectAll, collectAll, map_append]
    rw [map_collect agree first stands.left, map_collectAll agree rest stands.right]

end

/-- What is read off each capture of a tree is what is read off each capture of the part. -/
theorem map_captures {ofTree : Tree → β} {ofPart : Part → β}
    (agree : ∀ part offset, StandsAt part.chars input offset →
      ofTree (part.treeAt offset) = ofPart part) (stands : StandsAt part.chars input offset) :
    ((part.treeAt offset).captures).map ofTree = part.captures.map ofPart := by
  rw [Tree.captures, body_treeAt]
  rw [← chars_body] at stands
  exact map_collect agree part.body stands

theorem filterMap_captures {ofTree : Tree → Option β} {ofPart : Part → Option β}
    (agree : ∀ part offset, StandsAt part.chars input offset →
      ofTree (part.treeAt offset) = ofPart part) (stands : StandsAt part.chars input offset) :
    ((part.treeAt offset).captures).filterMap ofTree = part.captures.filterMap ofPart := by
  have inTwo : ∀ {α : Type} (read : α → Option β) (items : List α),
      items.filterMap read = (items.map read).filterMap id := by
    intro α read items
    rw [filterMap_map]
    rfl
  rw [inTwo ofTree, map_captures agree stands, ← inTwo ofPart]

theorem map_find?_captures {ofTree : Tree → β} {ofPart : Part → β}
    (agree : ∀ part offset, StandsAt part.chars input offset →
      ofTree (part.treeAt offset) = ofPart part) (stands : StandsAt part.chars input offset)
    (label : String) :
    (((part.treeAt offset).captures).find? (·.label? == some label)).map ofTree =
      (part.captures.find? (·.label? == some label)).map ofPart := by
  rw [map_find?, map_find?]
  congr 1
  refine filterMap_captures (fun inner offset stands => ?_) stands
  rw [label?_treeAt, agree inner offset stands]

end Part

/-! ## Readers that capture all they read -/

/-- All of a part is captured, under some labels. -/
structure Part.Labelled (labels : List String) (part : Part) : Prop where
  whole : part.collect.flatMap Part.chars = part.chars
  listed : ∀ piece ∈ part.collect, ∃ label ∈ labels, piece.label? = some label

/-- All that a reader reads is captured, under some labels. -/
def Reader.Labels (reader : Reader) (labels : List String) : Prop :=
  ∀ ⦃input part rest⦄, reader input = some (part, rest) → part.Labelled labels

section Labels

variable {labels : List String}

theorem Part.labelled_field {label : String} (among : label ∈ labels) (value : Part) :
    (Part.field label value).Labelled labels where
  whole := by simp only [Part.collect, flatMap_cons, flatMap_nil, append_nil]
  listed := by
    intro piece member
    rw [Part.collect, mem_singleton] at member
    subst member
    exact ⟨label, among, rfl⟩

theorem Part.labelled_list {parts : List Part} (each : ∀ part ∈ parts, part.Labelled labels) :
    (Part.list parts).Labelled labels := by
  constructor
  · rw [Part.collect, Part.chars]
    induction parts with
    | nil => rfl
    | cons part parts ih =>
      obtain ⟨here, later⟩ := forall_mem_cons.mp each
      rw [Part.collectAll, Part.charsAll, flatMap_append, here.whole, ih later]
  · intro piece member
    rw [Part.collect, Part.collectAll_eq_flatMap] at member
    obtain ⟨part, among, inside⟩ := mem_flatMap.mp member
    exact (each part among).listed piece inside

namespace Reader

variable {reader : Reader} {readers : List Reader}

theorem labels_capture (reader : Reader) {label : String} (among : label ∈ labels) :
    (reader.map (.field label)).Labels labels := by
  intro input part rest found
  obtain ⟨⟨value, _⟩, _, same⟩ := map_eq_some_iff.mp found
  obtain ⟨rfl, _⟩ := Prod.mk.inj same
  exact Part.labelled_field among value

theorem Labels.choice (each : ∀ reader ∈ readers, reader.Labels labels) :
    (choice readers).Labels labels := by
  intro input part rest found
  induction readers with
  | nil => cases found
  | cons reader readers ih =>
    rw [Reader.choice] at found
    cases first : reader input with
    | some read =>
      rw [first] at found
      cases found
      exact each reader mem_cons_self first
    | none =>
      rw [first] at found
      exact ih (forall_mem_cons.mp each).2 found

theorem Labels.rounds (each : reader.Labels labels) (most : Option Nat) (bound count : Nat)
    (input : Text) :
    ∀ part ∈ (Reader.rounds reader most bound count input).1, part.Labelled labels := by
  induction bound generalizing count input with
  | zero => exact fun part member => nomatch member
  | succ bound ih =>
    intro part member
    unfold Reader.rounds at member
    split at member
    · cases read : reader input with
      | none =>
        rw [read] at member
        cases member
      | some found =>
        obtain ⟨first, rest⟩ := found
        rw [read] at member
        dsimp only at member
        split at member
        · rw [mem_singleton.mp member]
          exact each read
        · rcases mem_cons.mp member with rfl | member
          · exact each read
          · exact ih _ _ part member
    · cases member

theorem Labels.repetition (each : reader.Labels labels) (least : Nat) (most : Option Nat) :
    (repetition reader least most).Labels labels := by
  intro input part rest found
  unfold Reader.repetition at found
  dsimp only at found
  split at found
  · cases found
  · cases found
    exact Part.labelled_list (each.rounds most _ 0 input)

end Reader

end Labels

end Reflow
