import Mathlib.Data.List.Destutter
import Reflow.Proofs.ParameterRuns

/-!
# Bodies with their runs opened up

Tidying works in two stages: inside every run of parameters, and across the elements of a body once
the separators at the edges of the runs have moved out. On a body whose runs are opened up the two
stages are one filter: placeholders go under the policy, and of separators that come to stand
together the first one stays (`flatItems_normalize`).
-/

namespace Reflow.Document

open List RunEntry

variable {entries : List RunEntry} {policy : UnnamedPolicy}

/-! ## Neighbours -/

section Neighbours

variable {α β : Type} (test : α → Bool)

/-- Two neighbours do not both satisfy a test. -/
def Apart (first second : α) : Prop := ¬ (test first ∧ test second)

instance : DecidableRel (Apart test) := fun _ _ => inferInstanceAs (Decidable (¬ _))

/-- Whether the last of some items satisfies a test; the flag says so for what stands before
them. -/
def lastIs : Bool → List α → Bool
  | before, [] => before
  | _, item :: rest => lastIs (test item) rest

theorem destutter'_apart (first : α) (items : List α) :
    items.destutter' (Apart test) first = first :: collapseFrom test (test first) items := by
  induction items generalizing first with
  | nil => rfl
  | cons item rest ih =>
    rw [List.destutter'_cons, collapseFrom]
    by_cases both : test first ∧ test item
    · have together : ¬ Apart test first item := fun apart => apart both
      rw [if_neg together, ih, both.1, both.2]
      rfl
    · have separate : Apart test first item := both
      have kept : ¬ (test first && test item) = true := by simpa using both
      rw [if_pos separate, if_neg kept, ih]

/-- Reducing neighbours that satisfy a test to the first one. -/
theorem collapse_eq_destutter (items : List α) :
    collapse test items = items.destutter (Apart test) := by
  cases items with
  | nil => rfl
  | cons first rest =>
    rw [destutter_cons', destutter'_apart]
    rfl

theorem isChain_collapse (items : List α) : (collapse test items).IsChain (Apart test) := by
  rw [collapse_eq_destutter]
  exact isChain_destutter _ _

theorem collapse_of_isChain {items : List α} (chain : items.IsChain (Apart test)) :
    collapse test items = items := by
  rw [collapse_eq_destutter]
  exact destutter_of_isChain _ _ chain

theorem collapseFrom_append (before : Bool) (first second : List α) :
    collapseFrom test before (first ++ second) =
      collapseFrom test before first ++ collapseFrom test (lastIs test before first) second := by
  induction first generalizing before with
  | nil => rfl
  | cons item rest ih =>
    rw [cons_append, collapseFrom, collapseFrom, lastIs]
    split
    · next dropped =>
      have separates : test item := (Bool.and_eq_true_iff.mp dropped).2
      rw [ih, separates]
    · rw [ih, cons_append]

theorem lastIs_collapseFrom (before : Bool) (items : List α) :
    lastIs test before (collapseFrom test before items) = lastIs test before items := by
  induction items generalizing before with
  | nil => rfl
  | cons item rest ih =>
    rw [collapseFrom, lastIs]
    split
    · next dropped =>
      obtain ⟨rfl, separates⟩ := Bool.and_eq_true_iff.mp dropped
      rw [ih, separates]
    · exact ih _

/-- Behind something that satisfies the test or not, reducing twice is reducing once. -/
theorem collapseFrom_collapse (before : Bool) (items : List α) :
    collapseFrom test before (collapse test items) = collapseFrom test before items := by
  have chain : ∀ items : List α, collapseFrom test true (collapseFrom test true items) =
      collapseFrom test true items ∧ ∀ before, collapseFrom test before
        (collapseFrom test false items) = collapseFrom test before items := by
    intro items
    induction items with
    | nil => exact ⟨rfl, fun _ => rfl⟩
    | cons item rest ih =>
      obtain ⟨behind, anywhere⟩ := ih
      cases found : test item with
      | true => simp [collapseFrom, found, behind]
      | false => simp [collapseFrom, found, anywhere]
  exact (chain items).2 before

/-- Pieces that are reduced one by one are reduced together as if they had not been. -/
theorem collapseFrom_flatMap_collapse (pieces : β → List α) (before : Bool) (items : List β) :
    collapseFrom test before (items.flatMap fun item => collapse test (pieces item)) =
      collapseFrom test before (items.flatMap pieces) := by
  induction items generalizing before with
  | nil => rfl
  | cons item rest ih =>
    have last : lastIs test before (collapse test (pieces item)) =
        lastIs test before (pieces item) := by
      rw [← lastIs_collapseFrom, collapseFrom_collapse, lastIs_collapseFrom]
    rw [flatMap_cons, flatMap_cons, collapseFrom_append, collapseFrom_append,
      collapseFrom_collapse, last, ih]

end Neighbours

namespace Block

/-! ## Opening up runs -/

/-- An element of a body whose runs of parameters are opened up. -/
inductive FlatItem where
  | paragraph (content : Paragraph)
  | parameter (entry : Parameter)
  | separator (line : Text)
  deriving DecidableEq, Repr

def FlatItem.isSeparator : FlatItem → Bool
  | separator _ => true
  | _ => false

def FlatItem.isUnnamed : FlatItem → Bool
  | parameter entry => entry.name == unnamedPlaceholder
  | _ => false

def FlatItem.ofEntry : RunEntry → FlatItem
  | .parameter entry => .parameter entry
  | .separator line => .separator line

def flatItem : BlockItem → List FlatItem
  | .paragraph (.parameters entries) => entries.map .ofEntry
  | .paragraph content => [.paragraph content]
  | .separator line => [.separator line]

def flatItems (items : List BlockItem) : List FlatItem := items.flatMap flatItem

/-- What a policy leaves of an opened body. -/
def withoutPlaceholders : UnnamedPolicy → List FlatItem → List FlatItem
  | .drop, items => items.filter (!·.isUnnamed)
  | .keep, items => items

theorem flatItem_paragraph {content : Paragraph}
    (noRun : ∀ entries, content ≠ .parameters entries) :
    flatItem (.paragraph content) = [.paragraph content] := by
  unfold flatItem
  split
  · next entries same => exact absurd (BlockItem.paragraph.inj same) (noRun entries)
  · next same => rw [BlockItem.paragraph.inj same]
  · next same => cases same

theorem flatItems_cons (item : BlockItem) (rest : List BlockItem) :
    flatItems (item :: rest) = flatItem item ++ flatItems rest :=
  flatMap_cons

theorem flatItems_append (first second : List BlockItem) :
    flatItems (first ++ second) = flatItems first ++ flatItems second :=
  flatMap_append

theorem flatItems_separators (line : Option Text) :
    flatItems (separators line) = (edge line).map .ofEntry := by
  cases line <;> rfl

theorem flatItems_kept (entries : List RunEntry) :
    flatItems (if entries.isEmpty then [] else [.paragraph (.parameters entries)]) =
      entries.map .ofEntry := by
  cases entries with
  | nil => rfl
  | cons entry rest => exact append_nil _

theorem isSeparator_ofEntry (entry : RunEntry) :
    (FlatItem.ofEntry entry).isSeparator = entry.isSeparator := by
  cases entry <;> rfl

theorem collapseFrom_map_ofEntry (before : Bool) (entries : List RunEntry) :
    collapseFrom FlatItem.isSeparator before (entries.map .ofEntry) =
      (collapseFrom isSeparator before entries).map .ofEntry := by
  induction entries generalizing before with
  | nil => rfl
  | cons entry rest ih =>
    rw [map_cons, collapseFrom, collapseFrom, isSeparator_ofEntry, ih, ih]
    split <;> rfl

/-- A policy acts on an opened body element by element. -/
theorem withoutPlaceholders_eq (policy : UnnamedPolicy) (items : List FlatItem) :
    withoutPlaceholders policy items =
      items.filter fun item => !(item.isUnnamed && policy == .drop) := by
  cases policy with
  | drop => simp [withoutPlaceholders]
  | keep =>
    have kept : (UnnamedPolicy.keep == .drop) = false := rfl
    simp [withoutPlaceholders, kept]

theorem withoutPlaceholders_run (policy : UnnamedPolicy) (entries : List RunEntry) :
    withoutPlaceholders policy (entries.map .ofEntry) =
      (entries.filter (stays policy)).map .ofEntry := by
  rw [withoutPlaceholders_eq, filter_map]
  congr 2
  funext entry
  cases entry <;> rfl

/-- Tidying one element: what the policy leaves of it, with single separators. -/
theorem flatItems_tidyItem (policy : UnnamedPolicy) (item : BlockItem) :
    flatItems (tidyItem policy item) =
      collapse FlatItem.isSeparator (withoutPlaceholders policy (flatItem item)) := by
  by_cases run : ∃ entries, item = .paragraph (.parameters entries)
  · obtain ⟨entries, rfl⟩ := run
    have whole := congrArg (List.map FlatItem.ofEntry) (separated_tidyRun policy entries)
    rw [map_append, map_append] at whole
    rw [tidyItem_run, flatItems_append, flatItems_append, flatItems_separators, flatItems_kept,
      flatItems_separators, whole, flatItem, withoutPlaceholders_run]
    exact (collapseFrom_map_ofEntry false _).symm
  · have other : ∀ entries, item ≠ .paragraph (.parameters entries) :=
      fun entries same => run ⟨entries, same⟩
    have stays : withoutPlaceholders policy (flatItem item) = flatItem item ∧
        ∃ flat, flatItem item = [flat] := by
      cases item with
      | separator line => cases policy <;> exact ⟨rfl, _, rfl⟩
      | paragraph content =>
        rw [flatItem_paragraph fun entries same => other entries (congrArg _ same)]
        cases policy <;> exact ⟨rfl, _, rfl⟩
    obtain ⟨same, flat, single⟩ := stays
    rw [tidyItem_other policy other, same, single]
    exact (append_nil _).trans single

/-! ## Tidied runs -/

theorem Tidy.head (tidy : Tidy entries) : ∃ first rest, entries = .parameter first :: rest := by
  cases tidy <;> exact ⟨_, _, rfl⟩

theorem Tidy.getLast? (tidy : Tidy entries) :
    ∃ last, entries.getLast? = some (.parameter last) := by
  induction tidy with
  | last entry => exact ⟨entry, rfl⟩
  | next entry tidy ih =>
    obtain ⟨last, found⟩ := ih
    exact ⟨last, by rw [List.getLast?_cons, found]; rfl⟩
  | gap entry line tidy ih =>
    obtain ⟨last, found⟩ := ih
    exact ⟨last, by rw [List.getLast?_cons, List.getLast?_cons, found]; rfl⟩

theorem Tidy.isChain (tidy : Tidy entries) : entries.IsChain (Apart isSeparator) := by
  have fromParameter : ∀ {entry : Parameter} {next : RunEntry},
      Apart isSeparator (.parameter entry) next := fun both => Bool.false_ne_true both.1
  have toParameter : ∀ {entry : Parameter} {previous : RunEntry},
      Apart isSeparator previous (.parameter entry) :=
    fun both => Bool.false_ne_true both.2
  induction tidy with
  | last entry => exact .singleton _
  | next entry tidy ih =>
    obtain ⟨first, rest, rfl⟩ := tidy.head
    exact .cons_cons fromParameter ih
  | gap entry line tidy ih =>
    obtain ⟨first, rest, rfl⟩ := tidy.head
    exact .cons_cons fromParameter (.cons_cons toParameter ih)

/-- A tidied run is left as it is by reducing separators, wherever it stands, and no separator is
its last element. -/
theorem Tidy.collapseFrom_eq (tidy : Tidy entries) (before : Bool) :
    collapseFrom FlatItem.isSeparator before (entries.map .ofEntry) = entries.map .ofEntry ∧
      lastIs FlatItem.isSeparator before (entries.map .ofEntry) = false := by
  constructor
  · have same := collapse_of_isChain _ tidy.isChain
    obtain ⟨first, rest, rfl⟩ := tidy.head
    have anywhere : collapseFrom isSeparator before (.parameter first :: rest) =
        collapse isSeparator (.parameter first :: rest) := by cases before <;> rfl
    rw [collapseFrom_map_ofEntry, anywhere, same]
  · induction tidy generalizing before with
    | last entry => rfl
    | next entry tidy ih => exact ih _
    | gap entry line tidy ih => exact ih _

variable {items : List BlockItem}

/-- Runs of a body that are tidied are opened up before or after separators are reduced. -/
theorem flatItems_collapseFrom
    (tidy : ∀ entries, .paragraph (.parameters entries) ∈ items → Tidy entries) (before : Bool) :
    flatItems (collapseFrom BlockItem.isSeparator before items) =
      collapseFrom FlatItem.isSeparator before (flatItems items) := by
  induction items generalizing before with
  | nil => rfl
  | cons item rest ih =>
    have later := ih (fun other member => tidy other (mem_cons_of_mem _ member))
    cases item with
    | separator line =>
      cases before with
      | true => exact later true
      | false => exact congrArg (FlatItem.separator line :: ·) (later true)
    | paragraph content =>
      have here : collapseFrom FlatItem.isSeparator before (flatItem (.paragraph content)) =
          flatItem (.paragraph content) ∧
          lastIs FlatItem.isSeparator before (flatItem (.paragraph content)) = false := by
        by_cases run : ∃ entries, content = .parameters entries
        · obtain ⟨entries, rfl⟩ := run
          exact (tidy entries mem_cons_self).collapseFrom_eq before
        · rw [flatItem_paragraph fun entries same => run ⟨entries, same⟩]
          cases before <;> exact ⟨rfl, rfl⟩
      have kept : collapseFrom BlockItem.isSeparator before (.paragraph content :: rest) =
          .paragraph content :: collapseFrom BlockItem.isSeparator false rest := by
        cases before <;> rfl
      rw [kept, flatItems_cons, flatItems_cons, collapseFrom_append, here.1, here.2, later]

/-! ## Normalized bodies -/

/-- The runs of a normalized body are what is kept of runs. -/
theorem exists_tidyRun
    (member : .paragraph (.parameters entries) ∈ items.flatMap (tidyItem policy)) :
    ∃ given, entries = (tidyRun policy given).entries ∧ entries ≠ [] := by
  obtain ⟨item, _, here⟩ := mem_flatMap.mp member
  rcases mem_tidyItem here with ⟨_, noRun⟩ | ⟨given, _, same, kept⟩
  · exact absurd rfl (noRun entries)
  · cases same
    exact ⟨given, rfl, kept⟩

theorem tidy_of_mem (member : .paragraph (.parameters entries) ∈ items.flatMap (tidyItem policy)) :
    Tidy entries := by
  obtain ⟨given, rfl, kept⟩ := exists_tidyRun member
  exact tidy_tidyRun kept

theorem mem_of_mem_normalize {item : BlockItem} (member : item ∈ normalize policy items) :
    item ∈ items.flatMap (tidyItem policy) :=
  (collapseFrom_sublist _ _ _).subset member

theorem stays_of_mem_tidyRun {entry : RunEntry}
    (member : entry ∈ (tidyRun policy entries).entries) : entry.stays policy := by
  have inside : entry ∈ collapse isSeparator (entries.filter (stays policy)) := by
    rw [← separated_tidyRun]
    exact mem_append_right _ (mem_append_left _ member)
  exact (mem_filter.mp ((collapseFrom_sublist _ _ _).subset inside)).2

theorem splitTrailing_of_getLast? {last : Parameter}
    (found : entries.getLast? = some (.parameter last)) :
    splitTrailing entries = (entries, none) := by
  fun_induction splitTrailing entries with
  | case1 => rfl
  | case2 line => cases found
  | case3 entry rest several kept trailing split ih =>
    cases rest with
    | nil =>
      cases split
      rfl
    | cons next rest =>
      rw [List.getLast?_cons_cons] at found
      rw [split] at ih
      cases ih found
      rfl

/-- Tidying leaves a run alone that is tidy and has nothing to drop. -/
theorem Tidy.tidyRun_eq (tidy : Tidy entries) (stays : ∀ entry ∈ entries, entry.stays policy) :
    tidyRun policy entries = { entries } := by
  obtain ⟨last, found⟩ := tidy.getLast?
  have same := collapse_of_isChain _ tidy.isChain
  have trailing := splitTrailing_of_getLast? found
  obtain ⟨first, rest, rfl⟩ := tidy.head
  simp only [tidyRun, filter_eq_self.mpr stays, same, splitLeading, trailing]

theorem Tidy.tidyItem_eq (tidy : Tidy entries) (stays : ∀ entry ∈ entries, entry.stays policy) :
    tidyItem policy (.paragraph (.parameters entries)) = [.paragraph (.parameters entries)] := by
  have same := tidy.tidyRun_eq stays
  obtain ⟨first, rest, rfl⟩ := tidy.head
  rw [tidyItem_run, same]
  rfl

/-- Tidying leaves every element of a normalized body alone. -/
theorem tidyItem_of_mem_normalize {item : BlockItem} (member : item ∈ normalize policy items) :
    tidyItem policy item = [item] := by
  by_cases run : ∃ entries, item = .paragraph (.parameters entries)
  · obtain ⟨entries, rfl⟩ := run
    obtain ⟨given, rfl, kept⟩ := exists_tidyRun (mem_of_mem_normalize member)
    exact (tidy_tidyRun kept).tidyItem_eq fun entry => stays_of_mem_tidyRun
  · exact tidyItem_other policy fun entries same => run ⟨entries, same⟩

theorem normalize_normalize (policy : UnnamedPolicy) (items : List BlockItem) :
    normalize policy (normalize policy items) = normalize policy items := by
  have same : (normalize policy items).flatMap (tidyItem policy) = normalize policy items := by
    rw [flatMap_congr fun item => tidyItem_of_mem_normalize, flatMap_singleton']
  calc normalize policy (normalize policy items)
      = collapse BlockItem.isSeparator (normalize policy items) := by rw [normalize, same]
    _ = normalize policy items := collapse_of_isChain _ (isChain_collapse _ _)

/-- Normalizing a body, whether it was read or not, is filtering it with its runs opened up: the
placeholders go under the policy, and of separators that then stand together the first one stays.
The runs that are left begin and end with a parameter and have no two separators together, and
normalizing again changes nothing. -/
theorem flatItems_normalize (policy : UnnamedPolicy) (items : List BlockItem) :
    flatItems (normalize policy items) =
      (withoutPlaceholders policy (flatItems items)).destutter (Apart FlatItem.isSeparator) ∧
    (∀ entries, .paragraph (.parameters entries) ∈ normalize policy items →
      (∃ first, entries.head? = some (.parameter first)) ∧
      (∃ last, entries.getLast? = some (.parameter last)) ∧
      entries.IsChain (Apart isSeparator)) ∧
    normalize policy (normalize policy items) = normalize policy items := by
  refine ⟨?_, fun entries member => ?_, normalize_normalize policy items⟩
  · have pieces : withoutPlaceholders policy (flatItems items) =
        items.flatMap fun item => withoutPlaceholders policy (flatItem item) := by
      simp only [withoutPlaceholders_eq, flatItems, filter_flatMap]
    rw [← collapse_eq_destutter, pieces, collapse, ← collapseFrom_flatMap_collapse, normalize,
      collapse, flatItems_collapseFrom fun entries => tidy_of_mem, flatItems, flatMap_assoc]
    simp only [← flatItems_tidyItem, flatItems]
  · have tidy := tidy_of_mem (mem_of_mem_normalize member)
    obtain ⟨first, rest, same⟩ := tidy.head
    exact ⟨⟨first, by rw [same]; rfl⟩, tidy.getLast?, tidy.isChain⟩

/-- Separators inside a run, at its edges and next to it, with placeholders between them. -/
def gappyBody : List BlockItem :=
  [.separator " *1\n".toList,
    .paragraph (.parameters
      [.parameter ⟨.param, [⟨" * ".toList, "<unnamed>".toList, "gone".toList⟩]⟩,
        .separator " *2\n".toList,
        .parameter ⟨.param, [⟨" * ".toList, "x".toList, "kept".toList⟩]⟩,
        .separator " *3\n".toList,
        .parameter ⟨.tparam, [⟨" * ".toList, "<unnamed>".toList, []⟩]⟩]),
    .separator " *4\n".toList]

theorem flatItems_gappyBody :
    normalize .drop gappyBody =
      [.separator " *1\n".toList,
        .paragraph (.parameters
          [.parameter ⟨.param, [⟨" * ".toList, "x".toList, "kept".toList⟩]⟩]),
        .separator " *3\n".toList] ∧
    flatItems (normalize .drop gappyBody) =
      (withoutPlaceholders .drop (flatItems gappyBody)).destutter (Apart FlatItem.isSeparator) ∧
    normalize .drop (normalize .drop gappyBody) = normalize .drop gappyBody ∧
    [parameter ⟨.param, [⟨" * ".toList, "x".toList, "kept".toList⟩]⟩].IsChain
      (Apart isSeparator) := by
  have normalized : normalize .drop gappyBody =
      [.separator " *1\n".toList,
        .paragraph (.parameters
          [.parameter ⟨.param, [⟨" * ".toList, "x".toList, "kept".toList⟩]⟩]),
        .separator " *3\n".toList] := by decide +kernel
  obtain ⟨flat, runs, again⟩ := flatItems_normalize .drop gappyBody
  refine ⟨normalized, flat, again, (runs _ ?_).2.2⟩
  rw [normalized]
  exact mem_cons_of_mem _ mem_cons_self

end Block

end Reflow.Document
