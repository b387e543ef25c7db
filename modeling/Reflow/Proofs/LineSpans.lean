import Reflow.Proofs.LineRuns

/-!
# Spans of lines

The spans of the lines of a text tile it: every offset of the text lies in exactly one of them
(`exists_lineSpan`, `find?_lineSpan`). A line starts at the front of the text or right behind a line
break (`start_lineSpan`), and it stops at the end of the text or right behind a line break
(`stop_lineSpan`).
-/

namespace Reflow.Text

open List

variable {offset start : Nat} {text : Text} {pieces : List Text} {line : Span}

theorem Span.contains_iff {span : Span} :
    span.contains offset ↔ span.start ≤ offset ∧ offset < span.stop := by
  simp [Span.contains]

/-! ## Lines -/

theorem flatten_consLine (c : Char) (rest : List Text) :
    (consLine c rest).flatten = c :: rest.flatten := by
  cases rest <;> rfl

theorem flatten_lines (text : Text) : (lines text).flatten = text := by
  induction text with
  | nil => rfl
  | cons c rest ih =>
    rw [lines]
    split
    next breaks => rw [flatten_cons, ih, breaks, singleton_append]
    next => rw [flatten_consLine, ih]

theorem exists_of_mem_dropLast_lines {line : Text} (member : line ∈ (lines text).dropLast) :
    ∃ body, line = body ++ ['\n'] := by
  induction text generalizing line with
  | nil => cases member
  | cons c rest ih =>
    rw [lines] at member
    cases later : lines rest with
    | nil =>
      rw [later] at member
      split at member <;> cases member
    | cons first others =>
      rw [later] at member ih
      split at member
      · rw [dropLast_cons_of_ne_nil (cons_ne_nil _ _)] at member
        rcases mem_cons.1 member with rfl | member
        · exact ⟨[], rfl⟩
        · exact ih member
      · -- The character goes to the front of the first line, which ends as before.
        cases others with
        | nil => cases member
        | cons second others =>
          simp only [consLine, dropLast_cons_cons] at member ih
          rcases mem_cons.1 member with rfl | member
          · obtain ⟨body, rfl⟩ := ih mem_cons_self
            exact ⟨c :: body, rfl⟩
          · exact ih (mem_cons_of_mem _ member)

/-! ## Spans of pieces -/

/-- A span is that of a piece, behind the pieces before it. -/
theorem split_of_mem_spansFrom {span : Span} (member : span ∈ spansFrom start pieces) :
    ∃ before piece after, pieces = before ++ piece :: after ∧
      span.start = start + byteLength before.flatten ∧
      span.stop = span.start + byteLength piece := by
  induction pieces generalizing start with
  | nil => cases member
  | cons piece pieces ih =>
    rcases mem_cons.1 member with rfl | member
    · exact ⟨[], piece, pieces, rfl, rfl, rfl⟩
    · obtain ⟨before, found, after, rfl, starts, stops⟩ := ih member
      refine ⟨piece :: before, found, after, rfl, ?_, stops⟩
      rw [starts, flatten_cons, byteLength_append, Nat.add_assoc]

theorem pairwise_spansFrom (start : Nat) (pieces : List Text) :
    (spansFrom start pieces).Pairwise fun first second => first.stop ≤ second.start := by
  induction pieces generalizing start with
  | nil => exact .nil
  | cons piece pieces ih =>
    refine pairwise_cons.2 ⟨?_, ih _⟩
    intro span member
    obtain ⟨before, found, after, same, starts, stops⟩ := split_of_mem_spansFrom member
    rw [starts]
    exact Nat.le_add_right _ _

theorem exists_spansFrom (above : start ≤ offset)
    (below : offset < start + byteLength pieces.flatten) :
    ∃ span ∈ spansFrom start pieces, span.contains offset := by
  induction pieces generalizing start with
  | nil =>
    rw [flatten_nil, byteLength_nil] at below
    omega
  | cons piece pieces ih =>
    by_cases first : offset < start + byteLength piece
    · exact ⟨_, mem_cons_self, Span.contains_iff.2 ⟨above, first⟩⟩
    · rw [flatten_cons, byteLength_append, ← Nat.add_assoc] at below
      obtain ⟨span, member, inside⟩ := ih (Nat.le_of_not_lt first) below
      exact ⟨span, mem_cons_of_mem _ member, inside⟩

theorem start_le_stop {span : Span} (member : span ∈ spansFrom start pieces) :
    span.start ≤ span.stop := by
  obtain ⟨before, piece, after, split, starts, stops⟩ := split_of_mem_spansFrom member
  omega

/-- The last piece stops where all pieces together do. -/
theorem stop_getLast {last : Span} (found : (spansFrom start pieces).getLast? = some last) :
    last.stop = start + byteLength pieces.flatten := by
  induction pieces generalizing start with
  | nil => cases found
  | cons piece pieces ih =>
    rw [flatten_cons, byteLength_append, ← Nat.add_assoc]
    cases pieces with
    | nil =>
      cases found
      rfl
    | cons next pieces => exact ih found

/-! ## Spans of lines -/

/-- Every offset of a text lies in a line. -/
theorem exists_lineSpan (below : offset < byteLength text) :
    ∃ line ∈ lineSpans text, line.contains offset := by
  refine exists_spansFrom (Nat.zero_le _) ?_
  rwa [flatten_lines, Nat.zero_add]

/-- The line that holds an offset is the first that does. -/
theorem find?_lineSpan (member : line ∈ lineSpans text) (inside : line.contains offset) :
    (lineSpans text).find? (·.contains offset) = some line := by
  obtain ⟨before, after, split⟩ := append_of_mem member
  have apart := pairwise_spansFrom 0 (lines text)
  rw [← lineSpans, split] at apart
  refine List.find?_eq_some_iff_append.2 ⟨inside, before, after, split, ?_⟩
  intro other earlier
  have stops := (pairwise_append.1 apart).2.2 other earlier line mem_cons_self
  have starts := (Span.contains_iff.1 inside).1
  simp only [Bool.not_eq_true', Bool.eq_false_iff, ne_eq, Span.contains_iff]
  omega

theorem stop_le_byteLength (member : line ∈ lineSpans text) : line.stop ≤ byteLength text := by
  obtain ⟨before, piece, after, split, starts, stops⟩ := split_of_mem_spansFrom member
  have whole := flatten_lines text
  rw [split, flatten_append, flatten_cons] at whole
  rw [← whole, byteLength_append, byteLength_append]
  omega

/-- A line starts at the front of the text or behind a line break. -/
theorem start_lineSpan (member : line ∈ lineSpans text) :
    ∃ before after, text = before ++ after ∧ byteLength before = line.start ∧
      (before = [] ∨ before.getLast? = some '\n') := by
  obtain ⟨before, piece, after, split, starts, -⟩ := split_of_mem_spansFrom member
  have whole := flatten_lines text
  rw [split, flatten_append] at whole
  refine ⟨before.flatten, _, whole.symm, by omega, ?_⟩
  rcases eq_nil_or_concat before with rfl | ⟨earlier, last, rfl⟩
  · exact .inl rfl
  · right
    have early : last ∈ (lines text).dropLast := by simp [split]
    obtain ⟨body, rfl⟩ := exists_of_mem_dropLast_lines early
    simp

/-- Lines further down start and stop no earlier. -/
theorem lineSpan_le {above below : Nat} {first last : Span} (ordered : above ≤ below)
    (upper : (lineSpans text)[above]? = some first) (lower : (lineSpans text)[below]? = some last) :
    first.start ≤ last.start ∧ first.stop ≤ last.stop := by
  have upperLe := start_le_stop (mem_of_getElem? upper)
  have lowerLe := start_le_stop (mem_of_getElem? lower)
  rcases Nat.eq_or_lt_of_le ordered with rfl | before
  · rw [upper] at lower
    cases lower
    exact ⟨Nat.le_refl _, Nat.le_refl _⟩
  · have apart := pairwise_iff_getElem.1 (pairwise_spansFrom 0 (lines text))
    obtain ⟨upperBound, rfl⟩ := List.getElem?_eq_some_iff.1 upper
    obtain ⟨lowerBound, rfl⟩ := List.getElem?_eq_some_iff.1 lower
    have := apart above below upperBound lowerBound before
    simp only [lineSpans] at upperLe lowerLe ⊢
    omega

/-- The line of an offset holds it. An offset at the end or beyond counts as the end. -/
theorem lineSpan_of_lineIndex {row : Nat} (found : lineIndex (lineSpans text) offset = some row) :
    ∃ line, (lineSpans text)[row]? = some line ∧ line.start ≤ min offset (byteLength text) ∧
      min offset (byteLength text) ≤ line.stop := by
  rw [lineIndex] at found
  split at found
  next index held =>
    cases found
    obtain ⟨bound, inside, -⟩ := List.findIdx?_eq_some_iff_getElem.1 held
    obtain ⟨starts, stops⟩ := Span.contains_iff.1 inside
    have within := stop_le_byteLength (getElem_mem bound)
    exact ⟨_, List.getElem?_eq_getElem bound, by omega, by omega⟩
  next =>
    split at found
    next last ends =>
      split at found
      next beyond =>
        cases found
        have whole := stop_getLast ends
        rw [flatten_lines, Nat.zero_add] at whole
        have listed := start_le_stop (mem_of_getLast? ends)
        rw [List.getLast?_eq_getElem?] at ends
        exact ⟨last, ends, by omega, by omega⟩
      next => cases found
    next => cases found

/-- A line stops at the end of the text or behind a line break. -/
theorem stop_lineSpan (member : line ∈ lineSpans text) :
    line.stop = byteLength text ∨
      ∃ before after, text = before ++ '\n' :: after ∧ line.stop = byteLength before + 1 := by
  obtain ⟨before, piece, after, split, starts, stops⟩ := split_of_mem_spansFrom member
  have whole := flatten_lines text
  rw [split, flatten_append, flatten_cons] at whole
  cases after with
  | nil =>
    left
    rw [← whole, flatten_nil, append_nil, byteLength_append]
    omega
  | cons next after =>
    right
    have early : piece ∈ (lines text).dropLast := by simp [split]
    obtain ⟨body, rfl⟩ := exists_of_mem_dropLast_lines early
    refine ⟨before.flatten ++ body, (next :: after).flatten, ?_, ?_⟩
    · rw [← whole]
      simp only [append_assoc, singleton_append]
    · have one : byteLength ['\n'] = 1 := rfl
      rw [stops, starts, byteLength_append, byteLength_append, one]
      omega

end Reflow.Text
