import Mathlib.Data.List.Forall2
import Mathlib.Data.List.Induction

/-!
# Lists

Facts about lists and about rows of related items that the library does not have.
-/

namespace List

variable {α β γ : Type}

theorem isEmpty_append (first second : List α) :
    (first ++ second).isEmpty = (first.isEmpty && second.isEmpty) := by
  cases first <;> simp

/-- The first item that passes, as the first of what is read off the items that do. -/
theorem map_find? (test : α → Bool) (read : α → β) (items : List α) :
    (items.find? test).map read =
      (items.filterMap fun item => if test item then some (read item) else none).head? := by
  induction items with
  | nil => rfl
  | cons item items ih => cases found : test item <;> simp [found, ih]

/-- Among distinct names, each one is looked up as what it is listed with. -/
theorem lookup_eq_some_iff_mem [BEq α] [LawfulBEq α] {table : List (α × β)} {key : α} {value : β}
    (distinct : (table.map (·.1)).Nodup) :
    table.lookup key = some value ↔ (key, value) ∈ table := by
  induction table with
  | nil => simp
  | cons entry table ih =>
    obtain ⟨name, item⟩ := entry
    rw [map_cons, nodup_cons] at distinct
    rw [lookup_cons, mem_cons]
    by_cases same : key = name
    · subst same
      have fresh : (key, value) ∉ table := fun member =>
        distinct.1 (mem_map.mpr ⟨_, member, rfl⟩)
      simp [fresh, eq_comm]
    · have other : (key == name) = false := beq_false_of_ne same
      simp [other, same, ih distinct.2]

theorem mapM_eq_self {given : List α} {read : α → Option α}
    (all : ∀ item ∈ given, read item = some item) : given.mapM read = some given := by
  induction given with
  | nil => rfl
  | cons item given ih =>
    rw [mapM_cons, all item mem_cons_self, ih (forall_mem_cons.mp all).2]
    rfl

/-! ## Rows -/

section Rows

variable {related : α → β → Prop} {items : List α} {others : List β}

/-- What is read off some items stands in a row with them. -/
theorem forall₂_of_mapM {read : α → Option β} (all : items.mapM read = some others) :
    Forall₂ (fun item other => read item = some other) items others := by
  induction items generalizing others with
  | nil => cases all; exact .nil
  | cons item items ih =>
    rw [mapM_cons] at all
    obtain ⟨other, first, later⟩ := Option.bind_eq_some_iff.mp all
    obtain ⟨rest, behind, built⟩ := Option.bind_eq_some_iff.mp later
    cases built
    exact .cons first (ih behind)

section Rows

variable (rows : Forall₂ related items others)

include rows

theorem Forall₂.exists_of_mem {other : β}
    (member : other ∈ others) : ∃ item ∈ items, related item other := by
  induction rows with
  | nil => cases member
  | cons first _ ih =>
    rcases mem_cons.mp member with rfl | member
    · exact ⟨_, mem_cons_self, first⟩
    · obtain ⟨item, inside, row⟩ := ih member
      exact ⟨item, mem_cons_of_mem _ inside, row⟩

theorem Forall₂.getElem? (index : Nat) :
    Option.Rel related items[index]? others[index]? := by
  induction rows generalizing index with
  | nil => exact .none
  | cons first _ ih =>
    cases index with
    | zero => exact .some first
    | succ index => exact ih index

theorem Forall₂.flatMap_eq {value : α → List γ} {read : β → List γ}
    (same : ∀ item other, related item other → read other = value item) :
    others.flatMap read = items.flatMap value := by
  induction rows with
  | nil => rfl
  | cons first _ ih => rw [flatMap_cons, flatMap_cons, same _ _ first, ih]

theorem Forall₂.concat {item : α} {other : β}
    (last : related item other) : Forall₂ related (items ++ [item]) (others ++ [other]) :=
  rel_append rows (.cons last .nil)

end Rows

theorem Forall₂.exists_of_concat {item : α} (rows : Forall₂ related (items ++ [item]) others) :
    ∃ front other, others = front ++ [other] ∧ Forall₂ related items front ∧
      related item other := by
  rw [← forall₂_reverse_iff, reverse_concat, forall₂_cons_left_iff] at rows
  obtain ⟨other, front, last, earlier, same⟩ := rows
  refine ⟨front.reverse, other, ?_, ?_, last⟩
  · rw [← reverse_cons, ← same, reverse_reverse]
  · rw [← forall₂_reverse_iff, reverse_reverse]
    exact earlier

/-- Two rows that are not empty end with related items. -/
theorem Forall₂.exists_last (rows : Forall₂ related items others) (someItem : items ≠ []) :
    ∃ front item older other, items = front ++ [item] ∧ others = older ++ [other] ∧
      Forall₂ related front older ∧ related item other := by
  obtain rfl | ⟨front, item, rfl⟩ := eq_nil_or_concat' items
  · exact absurd rfl someItem
  · obtain ⟨older, other, rfl, earlier, last⟩ := rows.exists_of_concat
    exact ⟨front, item, older, other, rfl, rfl, earlier, last⟩

end Rows

end List
