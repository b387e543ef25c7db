/-!
# Sorted maps

A map from names to values that lists its entries in increasing order of their names, each name
once. The order of names is that of their code points, which is also the order of their UTF-8 bytes.
-/

namespace Reflow

open List

/-- Puts an entry in its place, in place of an entry of the same name. -/
def insertEntry {α : Type} (name : String) (value : α) : List (String × α) → List (String × α)
  | [] => [(name, value)]
  | (other, kept) :: rest =>
    if name < other then (name, value) :: (other, kept) :: rest
    else if name = other then (name, value) :: rest
    else (other, kept) :: insertEntry name value rest

def SortedEntries {α : Type} (entries : List (String × α)) : Prop :=
  entries.Pairwise fun first second => first.1 < second.1

theorem sortedEntries_nil {α : Type} : SortedEntries ([] : List (String × α)) := List.Pairwise.nil

theorem mem_insertEntry {α : Type} {name : String} {value : α} {entries : List (String × α)}
    {entry : String × α} (member : entry ∈ insertEntry name value entries) :
    entry = (name, value) ∨ entry ∈ entries := by
  induction entries with
  | nil => simpa [insertEntry] using member
  | cons head rest ih =>
    simp only [insertEntry] at member
    split at member
    · simpa using member
    · split at member
      · simp only [mem_cons] at member ⊢
        rcases member with member | member
        · exact Or.inl member
        · exact Or.inr (Or.inr member)
      · simp only [mem_cons] at member ⊢
        rcases member with member | member
        · exact Or.inr (Or.inl member)
        · rcases ih member with found | found
          · exact Or.inl found
          · exact Or.inr (Or.inr found)

theorem sortedEntries_insertEntry {α : Type} (name : String) (value : α)
    {entries : List (String × α)} (sorted : SortedEntries entries) :
    SortedEntries (insertEntry name value entries) := by
  induction entries with
  | nil => simp [insertEntry, SortedEntries]
  | cons head rest ih =>
    have above : ∀ entry ∈ rest, head.1 < entry.1 := (pairwise_cons.1 sorted).1
    have tail : SortedEntries rest := (pairwise_cons.1 sorted).2
    simp only [insertEntry]
    split
    next before =>
      refine pairwise_cons.2 ⟨?_, sorted⟩
      intro entry member
      rcases mem_cons.1 member with found | found
      · simpa [found] using before
      · exact String.lt_trans before (above entry found)
    next notBefore =>
      split
      next same => exact pairwise_cons.2 ⟨fun entry member => same ▸ above entry member, tail⟩
      next different =>
        refine pairwise_cons.2 ⟨?_, ih tail⟩
        intro entry member
        rcases mem_insertEntry member with found | found
        · have : head.1 < name := by grind
          simpa [found] using this
        · exact above entry found

/-- A map from names to values, in increasing order of the names. -/
structure SortedMap (α : Type) where
  entries : List (String × α) := []
  sorted : SortedEntries entries := by exact sortedEntries_nil

namespace SortedMap

/-- Binds a name to a value; an earlier binding of the name is lost. -/
def insert {α : Type} (map : SortedMap α) (name : String) (value : α) : SortedMap α :=
  ⟨insertEntry name value map.entries, sortedEntries_insertEntry name value map.sorted⟩

def get? {α : Type} (map : SortedMap α) (name : String) : Option α := map.entries.lookup name

/-- The map of some bindings, the last one of each name. -/
def ofList {α : Type} (bindings : List (String × α)) : SortedMap α :=
  bindings.foldl (fun map binding => map.insert binding.1 binding.2) {}

instance {α : Type} [DecidableEq α] : DecidableEq (SortedMap α) := fun first second =>
  if same : first.entries = second.entries then
    isTrue (by cases first; cases second; simp_all)
  else isFalse (fun equal => same (congrArg entries equal))

instance {α : Type} [Repr α] : Repr (SortedMap α) := ⟨fun map precedence =>
  reprPrec map.entries precedence⟩

/-! ## Bindings and entries -/

variable {α : Type}

/-- The entries of a map are among the bindings that it was made from. -/
theorem mem_of_mem_ofList {bindings : List (String × α)} {entry : String × α}
    (member : entry ∈ (ofList bindings).entries) : entry ∈ bindings := by
  have inserted : ∀ (bindings : List (String × α)) (map : SortedMap α),
      entry ∈ (bindings.foldl (fun map binding => map.insert binding.1 binding.2) map).entries →
        entry ∈ bindings ∨ entry ∈ map.entries := by
    intro bindings
    induction bindings with
    | nil => exact fun _ => .inr
    | cons binding rest ih =>
      intro map member
      rcases ih (map.insert binding.1 binding.2) member with later | now
      · exact .inl (mem_cons_of_mem _ later)
      · rcases mem_insertEntry now with rfl | earlier
        · exact .inl mem_cons_self
        · exact .inr earlier
  rcases inserted bindings {} member with found | nothing
  · exact found
  · cases nothing

theorem lookup_insertEntry (name : String) (value : α) (entries : List (String × α))
    (key : String) :
    (insertEntry name value entries).lookup key =
      match key == name with
      | true => some value
      | false => entries.lookup key := by
  induction entries with
  | nil => rfl
  | cons head rest ih =>
    obtain ⟨other, kept⟩ := head
    unfold insertEntry
    split
    · rfl
    · split
      · next same =>
        subst same
        simp only [lookup_cons]
        cases key == name <;> rfl
      · next different =>
        simp only [lookup_cons, ih]
        cases found : key == other with
        | false => rfl
        | true =>
          have apart : (key == name) = false :=
            beq_false_of_ne fun same => different (same.symm.trans (eq_of_beq found))
          rw [apart]

theorem get?_foldl_insert (bindings : List (String × α)) (map : SortedMap α) (name : String) :
    (bindings.foldl (fun map binding => map.insert binding.1 binding.2) map).get? name =
      (bindings.reverse.lookup name).or (map.get? name) := by
  induction bindings generalizing map with
  | nil => simp
  | cons binding rest ih =>
    obtain ⟨other, value⟩ := binding
    rw [foldl_cons, ih, reverse_cons, lookup_append, Option.or_assoc]
    congr 1
    simp only [get?, insert, lookup_insertEntry, lookup_cons, lookup_nil]
    cases name == other <;> simp

/-- A map made from bindings gives each name its last one. -/
theorem get?_ofList (bindings : List (String × α)) (name : String) :
    (ofList bindings).get? name = bindings.reverse.lookup name := by
  rw [ofList, get?_foldl_insert]
  simp [get?]

/-- An entry whose name is above all others goes last. -/
theorem insertEntry_of_above {name : String} {entries : List (String × α)} (value : α)
    (above : ∀ entry ∈ entries, entry.1 < name) :
    insertEntry name value entries = entries ++ [(name, value)] := by
  induction entries with
  | nil => rfl
  | cons entry entries ih =>
    have below : entry.1 < name := above entry mem_cons_self
    rw [insertEntry, if_neg (String.lt_asymm below), if_neg (String.ne_of_lt below).symm,
      ih (forall_mem_cons.mp above).2, cons_append]

theorem foldl_insert_entries (entries : List (String × α)) (map : SortedMap α)
    (sorted : SortedEntries (map.entries ++ entries)) :
    (entries.foldl (fun map binding => map.insert binding.1 binding.2) map).entries =
      map.entries ++ entries := by
  induction entries generalizing map with
  | nil => exact (append_nil _).symm
  | cons entry entries ih =>
    have above : ∀ other ∈ map.entries, other.1 < entry.1 := fun other member =>
      (pairwise_append.1 sorted).2.2 other member entry mem_cons_self
    have inserted : (map.insert entry.1 entry.2).entries = map.entries ++ [entry] :=
      insertEntry_of_above entry.2 above
    rw [foldl_cons, ih, inserted, append_assoc, singleton_append]
    rw [inserted, append_assoc, singleton_append]
    exact sorted

theorem eq_of_entries_eq {first second : SortedMap α} (same : first.entries = second.entries) :
    first = second := by
  cases first
  cases second
  obtain rfl := same
  rfl

/-- A map is the map of its entries. -/
theorem ofList_entries (map : SortedMap α) : ofList map.entries = map :=
  eq_of_entries_eq (foldl_insert_entries map.entries {} map.sorted)

/-- Each name stands once among the entries, so the last of a name is the first. -/
theorem lookup_reverse (map : SortedMap α) (name : String) :
    map.entries.reverse.lookup name = map.get? name := by
  rw [← get?_ofList, ofList_entries]

end SortedMap

end Reflow
