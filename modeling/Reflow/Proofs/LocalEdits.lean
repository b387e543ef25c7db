import Reflow.Proofs.EnclosingComment
import Reflow.Proofs.LineRereading

/-!
# Edits that stay within their lines

However a scope is found, it goes from the start of a line to the end of a line and holds its
offset, so that it cuts the document into what stands before it, its text and what stands behind it
(`holdsLines_of_scope?`, `exists_cutsLines`). Formatting at an offset then only puts the formatted
text between the other two (`formatAt_local`).
-/

namespace Reflow

open Text List

namespace Text

/-- Of two fronts of a text, the longer one goes on from the shorter one. -/
theorem exists_between {front back front' back' : Text}
    (whole : front ++ back = front' ++ back') (size : byteLength front ≤ byteLength front') :
    ∃ between, front' = front ++ between := by
  rcases append_eq_append_iff.1 whole with ⟨between, longer, -⟩ | ⟨between, rfl, -⟩
  · exact ⟨between, longer⟩
  · rw [byteLength_append] at size
    obtain rfl : between = [] := byteLength_eq_zero (by omega)
    exact ⟨[], by simp⟩

end Text

/-! ## Scopes -/

/-- A span cuts a document between its lines: what stands before the span ends with a line break,
and so does the text of the span, if there is anything before and behind. -/
structure CutsLines (document : Text) (span : Span) (before text after : Text) :
    Prop where
  split : document = before ++ text ++ after
  start : span.start = byteLength before
  stop : span.stop = byteLength (before ++ text)
  begins : before = [] ∨ before.getLast? = some '\n'
  ends : after = [] ∨ (before ++ text).getLast? = some '\n'

/-- From the start of a line to the end of a line, with an offset in between. -/
def HoldsLines (document : Text) (offset : Nat) (span : Span) : Prop :=
  ∃ first ∈ lineSpans document, ∃ last ∈ lineSpans document, span = ⟨first.start, last.stop⟩ ∧
    first.start ≤ min offset (byteLength document) ∧ min offset (byteLength document) ≤ last.stop

variable {document : Text} {offset : Nat} {span : Span}

theorem exists_cutsLines {first last : Span} (head : first ∈ lineSpans document)
    (tail : last ∈ lineSpans document) (ordered : first.start ≤ last.stop) :
    ∃ before text after, CutsLines document ⟨first.start, last.stop⟩ before text after := by
  obtain ⟨before, rest, split, starts, begins⟩ := start_lineSpan head
  obtain ⟨front, after, whole, stops, ends⟩ : ∃ front after, document = front ++ after ∧
      byteLength front = last.stop ∧ (after = [] ∨ front.getLast? = some '\n') := by
    rcases stop_lineSpan tail with all | ⟨body, after, broken, stop⟩
    · exact ⟨document, [], by simp, all.symm, .inl rfl⟩
    · refine ⟨body ++ ['\n'], after, by simpa using broken, ?_, .inr (by simp)⟩
      rw [byteLength_append, stop]
      rfl
  obtain ⟨text, rfl⟩ := exists_between (split.symm.trans whole) (by omega)
  exact ⟨before, text, after, whole, starts.symm, stops.symm, begins, ends⟩

/-- The lines of the marks hold every offset between them. -/
theorem holdsLines_of_blockScope? (found : blockScope? document offset = some span) :
    HoldsLines document offset span := by
  simp only [blockScope?, Option.bind_eq_bind, Option.bind_eq_some_iff] at found
  obtain ⟨opening, opened, closing, closed, found⟩ := found
  split at found
  next => cases found
  next reaches =>
    cases found
    obtain ⟨opens, before⟩ := mem_filter.1 (mem_of_getLast? opened)
    have closes := mem_of_find?_eq_some closed
    have behind := List.find?_some closed
    simp only [decide_eq_true_eq] at before behind
    obtain ⟨first, head, last, tail, holds, ends, same⟩ :=
      isLines_of_marks (mem_pairOffsets_zero.1 opens) (mem_pairOffsets_zero.1 closes)
    have starts := (Span.contains_iff.1 holds).1
    have stops := (Span.contains_iff.1 ends).2
    exact ⟨first, head, last, tail, same, by omega, by omega⟩

theorem holdsLines_of_lineRun? {test : Text → Bool}
    (found : lineRun? test document offset = some span) : HoldsLines document offset span := by
  simp only [lineRun?, Option.bind_eq_bind, Option.bind_eq_some_iff] at found
  obtain ⟨row, indexed, found⟩ := found
  split at found
  next => cases found
  next =>
    obtain ⟨first, above, last, below, same⟩ := by
      simpa only [Option.bind_eq_some_iff] using found
    cases same
    -- The run begins at or above the line of the offset and ends at or below it.
    obtain ⟨line, listed, starts, stops⟩ := lineSpan_of_lineIndex indexed
    have upper := lineSpan_le (Nat.sub_le _ _) above listed
    have lower := lineSpan_le (Nat.le_add_right _ _) listed below
    exact ⟨first, mem_of_getElem? above, last, mem_of_getElem? below, rfl, by omega,
      by omega⟩

theorem holdsLines_of_scope? {kind : TextKind}
    (found : scope? document offset = some (kind, span)) : HoldsLines document offset span := by
  rw [scope?] at found
  split at found
  next comment =>
    cases found
    exact holdsLines_of_blockScope? comment
  next =>
    split at found
    next run =>
      cases found
      exact holdsLines_of_lineRun? run
    next =>
      obtain ⟨other, run, same⟩ := Option.map_eq_some_iff.1 found
      cases same
      exact holdsLines_of_lineRun? run

theorem HoldsLines.exists_cutsLines (holds : HoldsLines document offset span) :
    ∃ before text after, CutsLines document span before text after := by
  obtain ⟨first, head, last, tail, rfl, starts, stops⟩ := holds
  exact Reflow.exists_cutsLines head tail (Nat.le_trans starts stops)

/-! ## Edits -/

namespace CutsLines

variable {document before text after : Text} {span : Span}

theorem slice_eq (cut : CutsLines document span before text after) :
    span.slice document = text := by
  obtain ⟨start, stop⟩ := span
  obtain ⟨rfl, rfl, rfl, -, -⟩ := cut
  rw [byteLength_append]
  exact slice_append before text after

/-- Both ends of the span are character boundaries, and the edit leaves all else as it is. -/
theorem applyTo?_eq (cut : CutsLines document span before text after) (newText : Text) :
    (⟨span, newText⟩ : TextEdit).applyTo? document = some (before ++ newText ++ after) := by
  have front : splitBytes? span.start document = some (before, text ++ after) := by
    rw [cut.start, cut.split, append_assoc, splitBytes?_append]
  have back : splitBytes? span.stop document = some (before ++ text, after) := by
    rw [cut.stop, cut.split, splitBytes?_append]
  simp [TextEdit.applyTo?, front, back]

section

variable (cut : CutsLines document span before text after) {style : Style} {kind : TextKind}
  {offset : Nat} (found : scope? document offset = some (kind, span))

include cut found

/-- What is formatted at an offset is the text of its scope. -/
theorem formatAt_eq :
    formatAt style document offset = (format style kind text).map fun formatted =>
      if formatted = text then none else some ⟨span, formatted⟩ := by
  rw [formatAt, found]
  dsimp only
  rw [cut.slice_eq]
  cases format style kind text <;> rfl

theorem formatAt_eq_edit_iff {edit : TextEdit} :
    formatAt style document offset = .ok (some edit) ↔
      edit.span = span ∧ format style kind text = .ok edit.newText ∧ edit.newText ≠ text := by
  obtain ⟨place, newText⟩ := edit
  rw [cut.formatAt_eq found]
  cases format style kind text with
  | error error => simp [Except.map]
  | ok formatted =>
    by_cases same : formatted = text
    · simp only [Except.map, if_pos same, Except.ok.injEq, reduceCtorEq, false_iff]
      rintro ⟨-, rfl, differs⟩
      exact differs same
    · simp only [Except.map, if_neg same, Except.ok.injEq, Option.some.injEq, TextEdit.mk.injEq]
      constructor
      · rintro ⟨rfl, rfl⟩
        exact ⟨rfl, rfl, same⟩
      · rintro ⟨rfl, rfl, -⟩
        exact ⟨rfl, rfl⟩

theorem formatAt_eq_none_iff :
    formatAt style document offset = .ok none ↔ format style kind text = .ok text := by
  rw [cut.formatAt_eq found]
  cases format style kind text with
  | error error => simp [Except.map]
  | ok formatted => by_cases same : formatted = text <;> simp [Except.map, same]

theorem formatAt_eq_error_iff {error : FormatError} :
    formatAt style document offset = .error error ↔ format style kind text = .error error := by
  rw [cut.formatAt_eq found]
  cases format style kind text <;> simp [Except.map]

end

end CutsLines

/-- Either there is nothing at an offset, or its scope cuts the document. -/
theorem formatAt_cases (style : Style) (document : Text) (offset : Nat) :
    (scope? document offset = none ∧ formatAt style document offset = .ok none) ∨
      ∃ kind span before text after, scope? document offset = some (kind, span) ∧
        CutsLines document span before text after := by
  cases found : scope? document offset with
  | none => exact .inl ⟨rfl, by rw [formatAt, found]⟩
  | some scope =>
    obtain ⟨kind, span⟩ := scope
    obtain ⟨before, text, after, cut⟩ := (holdsLines_of_scope? found).exists_cutsLines
    exact .inr ⟨kind, span, before, text, after, rfl, cut⟩

/-- Every line of a document and every scope is cut out between characters and lines, and a scope
holds the offset that it was asked for. There is an edit if and only if the text of the scope can be
formatted and is not the result. Applied, the edit puts the result in the place of that text and
keeps all that stands before and behind. Without an edit there is nothing to format, or it stays as
it is, or the text of the scope cannot be formatted. -/
theorem formatAt_local (style : Style) (document : Text) (offset : Nat) :
    (∀ line ∈ lineSpans document, ∃ before text after, CutsLines document line before text after) ∧
    (∀ kind span, scope? document offset = some (kind, span) →
      span.start ≤ min offset (byteLength document) ∧
      min offset (byteLength document) ≤ span.stop ∧ span.stop ≤ byteLength document ∧
      ∃ before text after, CutsLines document span before text after) ∧
    (∀ edit, formatAt style document offset = .ok (some edit) ↔
      ∃ kind before text after, scope? document offset = some (kind, edit.span) ∧
        CutsLines document edit.span before text after ∧
        format style kind text = .ok edit.newText ∧ edit.newText ≠ text ∧
        edit.applyTo? document = some (before ++ edit.newText ++ after)) ∧
    (formatAt style document offset = .ok none ↔
      ∀ kind span before text after, scope? document offset = some (kind, span) →
        CutsLines document span before text after → format style kind text = .ok text) ∧
    (∀ error, formatAt style document offset = .error error ↔
      ∃ kind span before text after, scope? document offset = some (kind, span) ∧
        CutsLines document span before text after ∧ format style kind text = .error error) := by
  refine ⟨?_, ?_, ?_, ?_, ?_⟩
  · intro line member
    exact exists_cutsLines member member (start_le_stop member)
  · intro kind span found
    have holds := holdsLines_of_scope? found
    obtain ⟨before, text, after, cut⟩ := holds.exists_cutsLines
    obtain ⟨first, -, last, tail, rfl, starts, stops⟩ := holds
    have within := stop_le_byteLength tail
    exact ⟨starts, stops, within, before, text, after, cut⟩
  · intro edit
    constructor
    · intro edited
      rcases formatAt_cases style document offset with ⟨-, nothing⟩ |
        ⟨kind, span, before, text, after, found, cut⟩
      · rw [nothing] at edited
        cases edited
      · obtain ⟨rfl, formatted, differs⟩ := (cut.formatAt_eq_edit_iff found).1 edited
        exact ⟨kind, before, text, after, found, cut, formatted, differs, cut.applyTo?_eq _⟩
    · rintro ⟨kind, before, text, after, found, cut, formatted, differs, -⟩
      exact (cut.formatAt_eq_edit_iff found).2 ⟨rfl, formatted, differs⟩
  · constructor
    · intro unchanged kind span before text after found cut
      exact (cut.formatAt_eq_none_iff found).1 unchanged
    · intro same
      rcases formatAt_cases style document offset with ⟨-, nothing⟩ |
        ⟨kind, span, before, text, after, found, cut⟩
      · exact nothing
      · exact (cut.formatAt_eq_none_iff found).2 (same _ _ _ _ _ found cut)
  · intro error
    constructor
    · intro failed
      rcases formatAt_cases style document offset with ⟨-, nothing⟩ |
        ⟨kind, span, before, text, after, found, cut⟩
      · rw [nothing] at failed
        cases failed
      · exact ⟨kind, span, before, text, after, found, cut,
          (cut.formatAt_eq_error_iff found).1 failed⟩
    · rintro ⟨kind, span, before, text, after, found, cut, failed⟩
      exact (cut.formatAt_eq_error_iff found).2 failed

/-- A line comment between other lines, with characters of two bytes in it and before it. -/
def spacedComment : Text := "é\n// a\u00a0b\n// c\ny\n".toList

theorem parse_spaced : Document.LineComment.parse "// a\u00a0b\n// c\n".toList = .ok
    [.paragraph [{ lead := "// ".toList, contents := "a\u00a0b".toList },
      { lead := "// ".toList, contents := "c".toList }]] := by
  refine Document.LineComment.parse_eq_ok_iff.mpr ⟨by decide, ["// a\u00a0b".toList, "// c".toList],
    [.text { lead := "// ".toList, contents := "a\u00a0b".toList },
      .text { lead := "// ".toList, contents := "c".toList }], ?_, rfl, rfl, rfl⟩
  unfold Unbroken
  decide

/-- The offset is inside the space of two bytes. -/
theorem formatAt_spacedComment : scope? spacedComment 8 = some (.lineComment, ⟨3, 16⟩) ∧
    (∃ before text after, CutsLines spacedComment ⟨3, 16⟩ before text after) ∧
    formatAt {} spacedComment 8 = .ok (some ⟨⟨3, 16⟩, "// a b c\n".toList⟩) ∧
    (⟨⟨3, 16⟩, "// a b c\n".toList⟩ : TextEdit).applyTo? spacedComment =
      some "é\n// a b c\ny\n".toList := by
  obtain ⟨-, scopes, edits, -⟩ := formatAt_local {} spacedComment 8
  have found : scope? spacedComment 8 = some (.lineComment, ⟨3, 16⟩) := by decide
  have cut : CutsLines spacedComment ⟨3, 16⟩ "é\n".toList "// a\u00a0b\n// c\n".toList
      "y\n".toList := ⟨rfl, rfl, rfl, .inr rfl, .inr rfl⟩
  have formatted : format {} .lineComment "// a\u00a0b\n// c\n".toList =
      .ok "// a b c\n".toList :=
    Document.LineComment.formatLines_eq_ok.mpr ⟨_, parse_spaced, rfl⟩
  have applied := cut.applyTo?_eq "// a b c\n".toList
  exact ⟨found, (scopes _ _ found).2.2.2,
    (edits _).2 ⟨.lineComment, _, _, _, found, cut, formatted, by decide, applied⟩, applied⟩

end Reflow
