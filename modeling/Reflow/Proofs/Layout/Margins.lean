import Reflow.Layout.Margin
import Reflow.Proofs.Layout.Filling

/-!
# Margins

The margin of some lines stands in the indentation of every line that is not blank, and nothing
longer does (`prefix_margin`). Tabs and spaces in front of lines add to their margin
(`margin_shifted`), so lines that are flush get just what is put in front of them, and it can be
taken off again (`flushLines_shifted`).
-/

namespace Reflow.Layout

open Text List

/-! ## Common fronts -/

variable {text line front : Text}

theorem commonFront_prefix (first second : Text) :
    commonFront first second <+: first ∧ commonFront first second <+: second := by
  induction first generalizing second with
  | nil => exact ⟨List.nil_prefix, List.nil_prefix⟩
  | cons a first ih =>
    cases second with
    | nil => exact ⟨List.nil_prefix, List.nil_prefix⟩
    | cons b second =>
      rw [commonFront]
      split
      · next same =>
        subst same
        obtain ⟨left, right⟩ := ih second
        exact ⟨cons_prefix_cons.mpr ⟨rfl, left⟩, cons_prefix_cons.mpr ⟨rfl, right⟩⟩
      · exact ⟨List.nil_prefix, List.nil_prefix⟩

/-- The common front of some texts stands in front of each of them. -/
theorem commonFronts_prefix {texts : List Text} (member : text ∈ texts) :
    commonFronts texts <+: text := by
  have fold : ∀ (rest : List Text) (first : Text),
      rest.foldl commonFront first <+: first ∧
        ∀ other ∈ rest, rest.foldl commonFront first <+: other := by
    intro rest
    induction rest with
    | nil => exact fun first => ⟨prefix_refl _, nofun⟩
    | cons next rest ih =>
      intro first
      obtain ⟨left, right⟩ := commonFront_prefix first next
      obtain ⟨front, later⟩ := ih (commonFront first next)
      exact ⟨front.trans left, forall_mem_cons.mpr ⟨front.trans right, later⟩⟩
  cases texts with
  | nil => cases member
  | cons first rest =>
    obtain ⟨front, later⟩ := fold rest first
    exact forall_mem_cons.mpr ⟨front, later⟩ text member

theorem commonFront_append (front first second : Text) :
    commonFront (front ++ first) (front ++ second) = front ++ commonFront first second := by
  induction front with
  | nil => rfl
  | cons c front ih =>
    rw [cons_append, cons_append, commonFront, if_pos rfl, ih]
    rfl

/-- A text in front of all texts is in front of their common front. -/
theorem commonFronts_append {texts : List Text} (someText : texts ≠ [])
    (front : Text) : commonFronts (texts.map (front ++ ·)) = front ++ commonFronts texts := by
  obtain ⟨first, rest, rfl⟩ := exists_cons_of_ne_nil someText
  rw [map_cons, commonFronts, commonFronts]
  clear someText
  induction rest generalizing first with
  | nil => rfl
  | cons next rest ih =>
    rw [map_cons, foldl_cons, foldl_cons, commonFront_append, ih]

/-- A line with a text in front of it, unless it is blank. -/
def shifted (front line : Text) : Text := if isBlankText line then [] else front ++ line

def solidLines (lines : List Text) : List Text :=
  lines.filter fun line => !isBlankText line

/-! ## Margins -/

theorem exists_solid (someText : isBlankText line = false) :
    ∃ front c back, line = front ++ c :: back ∧ isBlank c = false := by
  obtain ⟨c, member, kept⟩ := all_eq_false.mp someText
  obtain ⟨front, back, rfl⟩ := append_of_mem member
  exact ⟨front, c, back, rfl, eq_false_of_ne_true kept⟩

/-- What stands in front of a text is not trimmed with it. -/
theorem trimEnd_append {text : Text} (someText : isBlankText text = false)
    (front : Text) : trimEnd (front ++ text) = front ++ trimEnd text := by
  obtain ⟨before, c, back, rfl, kept⟩ := exists_solid someText
  have whole : trimEnd (front ++ before ++ c :: back) = front ++ before ++ c :: trimEnd back :=
    dropEndWhile_kept kept _ _
  have alone : trimEnd (before ++ c :: back) = before ++ c :: trimEnd back :=
    dropEndWhile_kept kept _ _
  rw [← append_assoc, whole, alone, append_assoc]

theorem trimEnd_of_blank {text : Text} (blank : isBlankText text) : trimEnd text = [] :=
  dropEndWhile_of_all (all_eq_true.mp blank)

theorem isBlankText_trimEnd (text : Text) : isBlankText (trimEnd text) = isBlankText text := by
  cases blank : isBlankText text with
  | true => rw [trimEnd_of_blank blank]; rfl
  | false =>
    obtain ⟨before, c, back, rfl, kept⟩ := exists_solid blank
    have trimmed : trimEnd (before ++ c :: back) = before ++ c :: trimEnd back :=
      dropEndWhile_kept kept _ _
    rw [trimmed, isBlankText, all_append, all_cons, kept, Bool.false_and, Bool.and_false]

theorem trimEnd_append_trimEnd (front text : Text) :
    trimEnd (front ++ trimEnd text) = trimEnd (front ++ text) := by
  obtain ⟨back, whole, blank⟩ := exists_dropEndWhile isBlank text
  have again : trimEnd (front ++ trimEnd text ++ back) = trimEnd (front ++ trimEnd text) :=
    dropEndWhile_append blank
  have same : trimEnd text ++ back = text := whole.symm
  rw [← again, append_assoc, same]

theorem trimEnd_trimEnd (text : Text) : trimEnd (trimEnd text) = trimEnd text :=
  trimEnd_append_trimEnd [] text

theorem indentOf_append (indents : Indents front) (line : Text) :
    indentOf (front ++ line) = front ++ indentOf line :=
  takeWhile_append_of_pos indents

/-- Trimming a line that is not blank leaves its indentation. -/
theorem indentOf_trimEnd (someText : isBlankText line = false) :
    indentOf (trimEnd line) = indentOf line := by
  have whole : indentOf line ++ line.dropWhile isIndent = line := takeWhile_append_dropWhile
  have indents : Indents (indentOf line) := indents_takeWhile line
  have rest : isBlankText (line.dropWhile isIndent) = false := by
    rw [← whole, isBlankText, all_append, Bool.and_eq_false_iff] at someText
    refine someText.resolve_left fun refused => ?_
    obtain ⟨c, member, kept⟩ := all_eq_false.mp refused
    exact kept (isBlank_of_isIndent (indents c member))
  have stop : indentOf (trimEnd (line.dropWhile isIndent)) = [] := by
    obtain ⟨back, split, _⟩ := exists_dropEndWhile isBlank (line.dropWhile isIndent)
    have first := List.head?_dropWhile_not isIndent line
    rw [split] at first
    rw [indentOf, trimEnd]
    cases kept : dropEndWhile isBlank (line.dropWhile isIndent) with
    | nil => rfl
    | cons c more =>
      rw [kept] at first
      exact takeWhile_cons_of_neg (by simpa using first)
  calc indentOf (trimEnd line)
      = indentOf (trimEnd (indentOf line ++ line.dropWhile isIndent)) := by rw [whole]
    _ = indentOf line ++ indentOf (trimEnd (line.dropWhile isIndent)) := by
        rw [trimEnd_append rest, indentOf_append indents]
    _ = indentOf line := by rw [stop, append_nil]

/-- Blanks in front of a line do not make it blank or not. -/
theorem isBlankText_append (indents : Indents front) (line : Text) :
    isBlankText (front ++ line) = isBlankText line := by
  have blank : front.all isBlank :=
    all_eq_true.mpr fun c member => isBlank_of_isIndent (indents c member)
  rw [isBlankText, all_append, blank, Bool.true_and]
  rfl

section Shifts

variable {front : Text} (indents : Indents front)

include indents

theorem isBlankText_shifted (line : Text) :
    isBlankText (shifted front line) = isBlankText line := by
  cases blank : isBlankText line with
  | true => rw [shifted, if_pos blank]; rfl
  | false => rw [shifted, if_neg (ne_true_of_eq_false blank), isBlankText_append indents, blank]

theorem solidLines_shifted (lines : List Text) :
    solidLines (lines.map (shifted front)) = (solidLines lines).map (front ++ ·) := by
  have kept : ∀ line ∈ solidLines lines, shifted front line = front ++ line := by
    intro line member
    have someText := (mem_filter.mp member).2
    exact if_neg (by simpa using someText)
  rw [solidLines, filter_map, ← map_congr_left kept]
  congr 2
  funext line
  exact congrArg (!·) (isBlankText_shifted indents line)

theorem margin_shifted {lines : List Text} (someLine : solidLines lines ≠ []) :
    margin (lines.map (shifted front)) = front ++ margin lines := by
  have indented : ∀ line : Text, indentOf (front ++ line) = front ++ indentOf line :=
    indentOf_append indents
  have someIndent : (solidLines lines).map indentOf ≠ [] := by simpa using someLine
  calc margin (lines.map (shifted front))
      = commonFronts ((solidLines (lines.map (shifted front))).map indentOf) := rfl
    _ = commonFronts (((solidLines lines).map indentOf).map (front ++ ·)) := by
        rw [solidLines_shifted indents, map_map, map_map]
        exact congrArg commonFronts (map_congr_left fun line _ => indented line)
    _ = front ++ margin lines := commonFronts_append someIndent front

end Shifts

/-! ## Lines without a margin -/

/-- Lines without their common margin and without blanks at their ends. -/
def flushLines (lines : List Text) : List Text := (dedent lines).map trimEnd

def flushLine (lines : List Text) (line : Text) : Text :=
  trimEnd (if isBlankText line then [] else line.drop (margin lines).length)

theorem flushLines_eq (lines : List Text) :
    flushLines lines = lines.map (flushLine lines) := by
  rw [flushLines, dedent, map_map]
  rfl

theorem flushLine_of_blank (blank : isBlankText line) (lines : List Text) :
    flushLine lines line = [] := by
  rw [flushLine, if_pos blank]
  rfl

section Lines

variable {lines : List Text} {line : Text}

/-- The margin stands in the indentation of every line that is not blank. -/
theorem margin_prefix (member : line ∈ lines) (someText : isBlankText line = false) :
    margin lines <+: indentOf line := by
  refine commonFronts_prefix
    (mem_map.mpr ⟨line, mem_filter.mpr ⟨member, ?_⟩, rfl⟩)
  rw [someText]
  rfl

theorem margin_of_mem (member : line ∈ lines) (someText : isBlankText line = false) :
    line = margin lines ++ line.drop (margin lines).length := by
  have front := margin_prefix member someText
  obtain ⟨rest, whole⟩ := front.trans (List.takeWhile_prefix isIndent)
  rw [← whole, drop_left]

variable (lines) in
theorem indents_margin : Indents (margin lines) := by
  intro c found
  cases solid : solidLines lines with
  | nil =>
    rw [margin, ← solidLines, solid] at found
    cases found
  | cons line rest =>
    obtain ⟨member, someText⟩ := mem_filter.mp (solid ▸ mem_cons_self)
    have front := margin_prefix member (by simpa using someText)
    exact all_eq_true.mp all_takeWhile c (front.subset found)

theorem trimEnd_of_mem (member : line ∈ lines) (someText : isBlankText line = false) :
    trimEnd line = margin lines ++ flushLine lines line ∧
      isBlankText (flushLine lines line) = false := by
  have whole := margin_of_mem member someText
  have rest : isBlankText (line.drop (margin lines).length) = false := by
    rw [← isBlankText_append (indents_margin lines), ← whole, someText]
  rw [flushLine, if_neg (ne_true_of_eq_false someText), ← trimEnd_append rest, ← whole,
    isBlankText_trimEnd]
  exact ⟨rfl, rest⟩

/-- A flush line is not blank unless it is empty, and has no blanks at its end. -/
theorem flushLine_cases (member : line ∈ flushLines lines) :
    (line = [] ∨ isBlankText line = false) ∧ trimEnd line = line := by
  rw [flushLines_eq] at member
  obtain ⟨given, inside, rfl⟩ := mem_map.mp member
  refine ⟨?_, trimEnd_trimEnd _⟩
  cases blank : isBlankText given with
  | true => exact .inl (flushLine_of_blank blank lines)
  | false => exact .inr (trimEnd_of_mem inside blank).2

end Lines

theorem margin_map_trimEnd (lines : List Text) :
    margin (lines.map trimEnd) = margin lines := by
  have solid : solidLines (lines.map trimEnd) = (solidLines lines).map trimEnd := by
    rw [solidLines, filter_map]
    congr 2
    funext line
    exact congrArg (!·) (isBlankText_trimEnd line)
  have indents : ∀ line ∈ solidLines lines, indentOf (trimEnd line) = indentOf line := by
    intro line member
    exact indentOf_trimEnd (by simpa using (mem_filter.mp member).2)
  calc margin (lines.map trimEnd)
      = commonFronts ((solidLines (lines.map trimEnd)).map indentOf) := rfl
    _ = commonFronts ((solidLines lines).map indentOf) := by
        rw [solid, map_map]
        exact congrArg commonFronts (map_congr_left indents)
    _ = margin lines := rfl

/-- Up to blanks at the ends, lines are their flush lines behind the common margin. -/
theorem map_trimEnd_eq (lines : List Text) :
    lines.map trimEnd = (flushLines lines).map (shifted (margin lines)) := by
  rw [flushLines_eq, map_map]
  refine map_congr_left fun line member => ?_
  rw [Function.comp_apply]
  cases blank : isBlankText line with
  | true => rw [flushLine_of_blank blank, trimEnd_of_blank blank]; rfl
  | false =>
    obtain ⟨trimmed, someText⟩ := trimEnd_of_mem member blank
    rw [shifted, if_neg (ne_true_of_eq_false someText), trimmed]

/-- Nothing more can be taken off flush lines. -/
theorem margin_flushLines (lines : List Text) : margin (flushLines lines) = [] := by
  by_cases someLine : solidLines (flushLines lines) = []
  · rw [margin, ← solidLines, someLine]
    rfl
  · -- The lines are the flush lines behind their margin, so what these share would add to it.
    have twice := margin_shifted (indents_margin lines) someLine
    rw [← map_trimEnd_eq, margin_map_trimEnd] at twice
    exact self_eq_append_right.mp twice

/-- Flush lines are had again from whatever is put in front of them. -/
theorem flushLines_shifted (indents : Indents front) (lines : List Text) :
    flushLines ((flushLines lines).map (shifted front)) = flushLines lines := by
  rw [flushLines_eq, map_map]
  refine (map_congr_left fun line member => ?_).trans (map_id _)
  obtain ⟨shape, trimmed⟩ := flushLine_cases member
  rw [Function.comp_apply]
  rcases shape with rfl | someText
  · exact flushLine_of_blank rfl _
  · have someLine : solidLines (flushLines lines) ≠ [] := by
      refine ne_nil_of_mem (mem_filter.mpr ⟨member, ?_⟩)
      rw [someText]
      rfl
    -- One line that is not blank makes the margin just what was put in front.
    have inserted := margin_shifted indents someLine
    rw [margin_flushLines, append_nil] at inserted
    have moved : shifted front line = front ++ line := if_neg (ne_true_of_eq_false someText)
    rw [flushLine, isBlankText_shifted indents, if_neg (ne_true_of_eq_false someText), inserted,
      moved, drop_left, trimmed]
    rfl

/-- Tabs and spaces in front of all lines that are not blank stand in their margin. -/
theorem prefix_margin {lines : List Text} {front : Text}
    (indents : Indents front) (someLine : solidLines lines ≠ [])
    (inside : ∀ line ∈ solidLines lines, front <+: line) : front <+: margin lines := by
  have rests : (solidLines lines).map indentOf =
      ((solidLines lines).map fun line => indentOf (line.drop front.length)).map (front ++ ·) := by
    rw [map_map]
    refine map_congr_left fun line member => ?_
    obtain ⟨rest, rfl⟩ := inside line member
    rw [Function.comp_apply, drop_left, indentOf_append indents]
  rw [margin, ← solidLines, rests, commonFronts_append (by simpa using someLine)]
  exact prefix_append _ _

/-- Nothing is left to take off. -/
theorem margin_dedent (lines : List Text) : margin (dedent lines) = [] := by
  rw [← margin_map_trimEnd, ← flushLines, margin_flushLines]

/-- The lines that are left are empty or not blank. -/
theorem dedent_cases {lines : List Text} {line : Text} (member : line ∈ dedent lines) :
    line = [] ∨ isBlankText line = false := by
  obtain ⟨given, inside, rfl⟩ := mem_map.mp member
  cases blank : isBlankText given with
  | true => exact .inl rfl
  | false =>
    have whole := margin_of_mem inside blank
    refine .inr ?_
    rw [← isBlankText_append (indents_margin lines)]
    simpa only [Bool.false_eq_true, if_false, ← whole] using blank

theorem dedent_dedent (lines : List Text) : dedent (dedent lines) = dedent lines := by
  rw [dedent, margin_dedent]
  refine (map_congr_left fun line member => ?_).trans (map_id _)
  rcases dedent_cases member with rfl | someText
  · rfl
  · rw [someText]
    rfl

end Reflow.Layout
