import Reflow.Document.TagLine
import Reflow.Proofs.Layout.Filling
import Reflow.Proofs.Layout.Columns

/-!
# Paragraphs as filled lines

The three ways to write a paragraph fill its words into lines and put something in front of each
line. Columns that fit in a word lead to the same lines if they are computed in words
(`contiguousAt_words`).
-/

namespace Reflow

open Text List

/-! ## The words of lines -/

namespace Document

open Layout

def allWords (lines : List TagLine) : List Text := lines.flatMap (words ·.contents)

variable {lines : List TagLine}

theorem isWord_of_mem_allWords : ∀ word ∈ allWords lines, IsWord word := by
  intro word member
  obtain ⟨line, _, inside⟩ := mem_flatMap.mp member
  exact isWord_of_mem_words inside

theorem joinLines_eq : joinLines lines = joinWords (allWords lines) := by
  rw [joinLines, joinContents, flatMap_map]
  rfl

theorem words_joinLines : words (joinLines lines) = allWords lines := by
  rw [joinLines_eq, words_joinWords isWord_of_mem_allWords]

theorem words_joinContents (contents : List Text) :
    words (joinContents contents) = contents.flatMap words := by
  refine words_joinWords fun word member => ?_
  obtain ⟨text, _, inside⟩ := mem_flatMap.mp member
  exact isWord_of_mem_words inside

end Document

/-! ## Ways to write a paragraph -/

namespace Layout

/-- Filled lines, the first one behind a lead and a header and the others behind the lead and more
indentation, or what stands there alone if there are none. -/
def hanging (lead header deeper alone : Text) : List (List Text) → Text
  | [] => alone ++ ['\n']
  | first :: rest =>
    lead ++ header ++ joinWords first ++ ['\n'] ++ leadLines (lead ++ deeper) (rest.map joinWords)

/-- The wrap of a text that is laid out behind a header. -/
theorem contiguousAt_eq (ctx : Context) (leadWidth textStart : Nat) (lead header text : Text) :
    ∃ wrap : Wrap, wrap.sticky = ctx.sticky ∧ contiguousAt ctx leadWidth textStart lead header text =
      hanging lead header (indentation leadWidth textStart ctx.style.tabSize)
        (trimEnd (lead ++ header)) (wrap.fillWords (words text)) := by
  refine ⟨{ width := ctx.style.width - textStart, sticky := ctx.sticky }, rfl, ?_⟩
  rw [contiguousAt, Wrap.lines]
  cases Wrap.fillWords _ (words text) <;> rfl

/-- A text under a header is filled into lines behind the lead and more indentation. -/
theorem contiguous_eq (ctx : Context) (lead header text : Text) :
    ∃ (wrap : Wrap) (deeper : Text), wrap.sticky = ctx.sticky ∧
      Indents deeper ∧ contiguous ctx lead header text =
        hanging lead header deeper (trimEnd (lead ++ header)) (wrap.fillWords (words text)) := by
  obtain ⟨wrap, sticky, layout⟩ := contiguousAt_eq ctx _ _ lead header text
  exact ⟨wrap, _, sticky, fun _ => mem_indentation, layout⟩

/-- The wrap of a text that is laid out below a head. -/
theorem breaking_eq (ctx : Context) (head bodyLead text : Text) :
    ∃ wrap : Wrap, wrap.sticky = ctx.sticky ∧ breaking ctx head bodyLead text =
      trimEnd head ++ ['\n'] ++ leadLines bodyLead ((wrap.fillWords (words text)).map joinWords) :=
  ⟨ctx.wrapBehind bodyLead, rfl, rfl⟩

/-- A text behind a bullet is filled into lines behind the lead and a tab. -/
theorem bullet_eq (ctx : Context) (lead start text : Text) :
    ∃ wrap : Wrap, wrap.sticky = ctx.sticky ∧ bullet ctx lead start text =
      hanging lead start ['\t'] (lead ++ start) (wrap.fillWords (words text)) := by
  refine ⟨ctx.wrapBullet lead start, rfl, ?_⟩
  rw [bullet, Wrap.lines]
  cases Wrap.fillWords _ (words text) <;> rfl

/-- Without a header, all lines of a text stand behind the lead. -/
theorem contiguous_nil (ctx : Context) (lead : Text) (someWord : words text ≠ []) :
    contiguous ctx lead [] text = leadLines lead ((ctx.wrapBehind lead).lines text) := by
  have noWidth : textWidth [] = 0 := rfl
  rw [contiguous, noWidth, Nat.add_zero, contiguousAt, indentation_self]
  split
  · next noneFilled =>
    exact absurd (map_eq_nil_iff.mp noneFilled) (Wrap.fillWords_ne_nil _ someWord)
  · next first rest filled =>
    rw [Context.wrapBehind, filled]
    simp [leadLines]

/-- As long as the column of the text fits, it may be computed in words. -/
theorem contiguousAt_words (ctx : Context) {tabSize : UInt64}
    (same : tabSize.toNat = ctx.style.tabSize) {lead header : Text}
    (fits : visualWidth lead ctx.style.tabSize + textWidth header < UInt64.size) (text : Text) :
    contiguousAt ctx (wordAdvance 0 lead tabSize).toNat
      (wordAdvance 0 lead tabSize + .ofNat (textWidth header)).toNat lead header text =
        contiguous ctx lead header text := by
  have front : (wordAdvance 0 lead tabSize).toNat = visualWidth lead ctx.style.tabSize := by
    rw [← same] at fits ⊢
    exact toNat_wordAdvance (Nat.lt_of_le_of_lt (Nat.le_add_right _ _) fits)
  have start : (wordAdvance 0 lead tabSize + .ofNat (textWidth header)).toNat =
      visualWidth lead ctx.style.tabSize + textWidth header := by
    rw [UInt64.toNat_add, front, UInt64.toNat_ofNat_of_lt' (by omega)]
    exact Nat.mod_eq_of_lt fits
  rw [front, start, contiguous]

end Layout

end Reflow
