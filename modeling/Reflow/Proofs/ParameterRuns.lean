import Reflow.Document.Block.Writing

/-!
# Tidied runs of parameters

Tidying makes of a run what stays of it under a policy, with single separators, and moves the
separators at its edges out of it (`separated_tidyRun`). What is kept begins and ends with a parameter
(`tidy_tidyRun`).
-/

namespace Reflow.Document.Block

open Text Layout List RunEntry

/-! ## Tidied runs -/

/-- A run that begins and ends with a parameter and in which no two separators stand together. -/
inductive Tidy : List RunEntry → Prop
  | last (entry : Parameter) : Tidy [.parameter entry]
  | next (entry : Parameter) {rest : List RunEntry} (tidy : Tidy rest) :
      Tidy (.parameter entry :: rest)
  | gap (entry : Parameter) (line : Text) {rest : List RunEntry} (tidy : Tidy rest) :
      Tidy (.parameter entry :: .separator line :: rest)

variable {entries : List RunEntry} {policy : UnnamedPolicy} {item : BlockItem}

theorem splitTrailing_cons (entry : RunEntry) (someEntry : entries ≠ []) :
    (splitTrailing (entry :: entries)).1 = entry :: (splitTrailing entries).1 := by
  obtain ⟨next, rest, rfl⟩ := exists_cons_of_ne_nil someEntry
  rw [splitTrailing]
  simp

/-- Behind a separator and behind a parameter, what is left of a run is tidy once a separator is
taken off its end. -/
theorem tidy_collapseFrom (entries : List RunEntry) :
    (collapseFrom isSeparator true entries = [] ∨
      Tidy (splitTrailing (collapseFrom isSeparator true entries)).1) ∧
    ∀ entry, Tidy
      (splitTrailing (.parameter entry :: collapseFrom isSeparator false entries)).1 := by
  induction entries with
  | nil => exact ⟨.inl rfl, fun entry => .last entry⟩
  | cons first entries ih =>
    obtain ⟨behindSeparator, behindParameter⟩ := ih
    cases first with
    | parameter next =>
      refine ⟨.inr (behindParameter next), fun entry => ?_⟩
      have shape : collapseFrom isSeparator false (.parameter next :: entries) =
          .parameter next :: collapseFrom isSeparator false entries := rfl
      rw [shape, splitTrailing_cons _ (cons_ne_nil _ _)]
      exact .next entry (behindParameter next)
    | separator line =>
      refine ⟨behindSeparator, fun entry => ?_⟩
      have shape : collapseFrom isSeparator false (.separator line :: entries) =
          .separator line :: collapseFrom isSeparator true entries := rfl
      rw [shape, splitTrailing_cons _ (cons_ne_nil _ _)]
      rcases behindSeparator with empty | tidy
      · rw [empty]
        exact .last entry
      · have someEntry : collapseFrom isSeparator true entries ≠ [] := by
          intro empty
          rw [empty] at tidy
          cases tidy
        rw [splitTrailing_cons _ someEntry]
        exact .gap entry line tidy

/-- What is kept of a run is tidy. -/
theorem tidy_tidyRun (kept : (tidyRun policy entries).entries ≠ []) :
    Tidy (tidyRun policy entries).entries := by
  have shape : (tidyRun policy entries).entries = (splitTrailing (splitLeading
      (collapseFrom isSeparator false (entries.filter (stays policy)))).2).1 := rfl
  rw [shape] at kept ⊢
  cases filtered : entries.filter (stays policy) with
  | nil =>
    rw [filtered] at kept
    exact absurd rfl kept
  | cons first rest =>
    rw [filtered] at kept
    obtain ⟨behindSeparator, behindParameter⟩ := tidy_collapseFrom rest
    cases first with
    | parameter entry => exact behindParameter entry
    | separator line =>
      rcases behindSeparator with empty | tidy
      · exact absurd (congrArg (fun kept => (splitTrailing kept).1) empty) kept
      · exact tidy

theorem collapseFrom_sublist {α : Type} (test : α → Bool) (before : Bool) (items : List α) :
    (collapseFrom test before items).Sublist items := by
  induction items generalizing before with
  | nil => exact .slnil
  | cons item rest ih =>
    rw [collapseFrom]
    split
    · exact (ih true).cons item
    · exact (ih _).cons_cons item

theorem flatMap_collapseFrom {α β : Type} {test : α → Bool} {value : α → List β}
    (empty : ∀ item, test item → value item = []) (before : Bool) (items : List α) :
    (collapseFrom test before items).flatMap value = items.flatMap value := by
  induction items generalizing before with
  | nil => rfl
  | cons item rest ih =>
    rw [collapseFrom]
    split
    · next dropped =>
      have separates := (Bool.and_eq_true _ _ ▸ dropped).2
      rw [ih, flatMap_cons, empty item separates, nil_append]
    · rw [flatMap_cons, flatMap_cons, ih]

def edge (line : Option Text) : List RunEntry := (line.map .separator).toList

theorem edge_splitLeading (entries : List RunEntry) :
    edge (splitLeading entries).1 ++ (splitLeading entries).2 = entries := by
  unfold splitLeading
  split <;> rfl

theorem splitTrailing_edge (entries : List RunEntry) :
    (splitTrailing entries).1 ++ edge (splitTrailing entries).2 = entries := by
  fun_induction splitTrailing entries with
  | case1 => rfl
  | case2 line => rfl
  | case3 entry rest _ kept trailing split ih =>
    rw [split] at ih
    exact congrArg (entry :: ·) ih

/-- A tidied run and the separators around it are what stays of the run, with single separators. -/
theorem separated_tidyRun (policy : UnnamedPolicy) (entries : List RunEntry) :
    edge (tidyRun policy entries).leading ++ ((tidyRun policy entries).entries ++
      edge (tidyRun policy entries).trailing) =
        collapse isSeparator (entries.filter (stays policy)) := by
  have front := edge_splitLeading (collapse isSeparator (entries.filter (stays policy)))
  have back := splitTrailing_edge
    (splitLeading (collapse isSeparator (entries.filter (stays policy)))).2
  rw [← back] at front
  exact front

/-- What comes from a run was in the run. -/
theorem mem_of_mem_separated (policy : UnnamedPolicy) {entry : RunEntry}
    (member : entry ∈ edge (tidyRun policy entries).leading ++ ((tidyRun policy entries).entries ++
      edge (tidyRun policy entries).trailing)) : entry ∈ entries := by
  rw [separated_tidyRun] at member
  exact (mem_filter.mp ((collapseFrom_sublist _ _ _).subset member)).1

theorem mem_of_mem_tidyRun {entry : RunEntry} (member : entry ∈ (tidyRun policy entries).entries) :
    entry ∈ entries :=
  mem_of_mem_separated policy (mem_append_right _ (mem_append_left _ member))

theorem tidyItem_run (policy : UnnamedPolicy) (entries : List RunEntry) :
    tidyItem policy (.paragraph (.parameters entries)) =
      separators (tidyRun policy entries).leading ++
        ((if (tidyRun policy entries).entries.isEmpty then []
          else [.paragraph (.parameters (tidyRun policy entries).entries)]) ++
        separators (tidyRun policy entries).trailing) :=
  append_assoc ..

theorem tidyItem_other (policy : UnnamedPolicy)
    (other : ∀ entries, item ≠ .paragraph (.parameters entries)) :
    tidyItem policy item = [item] := by
  unfold tidyItem
  split
  · exact absurd rfl (other _)
  · rfl

/-- What is made of a run: separators that stood in it, and what is kept of it if that is
anything. -/
theorem mem_tidyItem_run (member : item ∈ tidyItem policy (.paragraph (.parameters entries))) :
    (∃ line, item = .separator line ∧ .separator line ∈ entries) ∨
      (item = .paragraph (.parameters (tidyRun policy entries).entries) ∧
        (tidyRun policy entries).entries ≠ []) := by
  have standing : ∀ line, item ∈ separators line →
      ∃ text, line = some text ∧ item = .separator text := by
    intro line inside
    cases line with
    | none => cases inside
    | some text => exact ⟨text, rfl, mem_singleton.mp inside⟩
  rw [tidyItem_run, mem_append, mem_append] at member
  rcases member with early | kept | late
  · obtain ⟨text, leading, rfl⟩ := standing _ early
    refine .inl ⟨text, rfl, mem_of_mem_separated policy ?_⟩
    rw [leading]
    exact mem_append_left _ (mem_singleton_self _)
  · right
    split at kept
    · cases kept
    · next someEntry => exact ⟨mem_singleton.mp kept, by simpa using someEntry⟩
  · obtain ⟨text, trailing, rfl⟩ := standing _ late
    refine .inl ⟨text, rfl, mem_of_mem_separated policy ?_⟩
    rw [trailing]
    exact mem_append_right _ (mem_append_right _ (mem_singleton_self _))

/-- A paragraph of a tidied comment stood in the comment, or is what is kept of a run. -/
theorem mem_tidyItem {paragraph : Paragraph}
    (member : .paragraph paragraph ∈ tidyItem policy item) :
    (item = .paragraph paragraph ∧ ∀ entries, paragraph ≠ .parameters entries) ∨
      ∃ entries, item = .paragraph (.parameters entries) ∧
        paragraph = .parameters (tidyRun policy entries).entries ∧
        (tidyRun policy entries).entries ≠ [] := by
  by_cases run : ∃ entries, item = .paragraph (.parameters entries)
  · obtain ⟨entries, rfl⟩ := run
    rcases mem_tidyItem_run member with ⟨_, separator, _⟩ | ⟨same, kept⟩
    · cases separator
    · cases same
      exact .inr ⟨entries, rfl, rfl, kept⟩
  · rw [tidyItem_other policy fun entries same => run ⟨entries, same⟩] at member
    obtain rfl := mem_singleton.mp member
    exact .inl ⟨rfl, fun entries same => run ⟨entries, by rw [same]⟩⟩

/-- The header of a parameter is its marker and its name, each with blanks behind it. -/
theorem parameterHeader_eq (marker name : Text) (columns : Columns) :
    ∃ gap blanks, parameterHeader marker name columns = marker ++ ((gap ++ name) ++ blanks) ∧
      Indents gap ∧ gap ≠ [] ∧ Indents blanks ∧
        blanks ≠ [] := by
  have indents : ∀ count, ∀ c ∈ ' ' :: spaces count, isIndent c := by
    intro count c member
    rcases mem_cons.mp member with rfl | inside
    · rfl
    · rw [eq_of_mem_replicate inside]
      rfl
  refine ⟨' ' :: spaces (columns.nameColumn - textWidth (marker ++ [' '])),
    ' ' :: spaces (columns.textColumn -
      textWidth (padTo (marker ++ [' ']) columns.nameColumn ++ name ++ [' '])),
    ?_, indents _, cons_ne_nil _ _, indents _, cons_ne_nil _ _⟩
  simp [parameterHeader, padTo]

end Reflow.Document.Block
