import Reflow.Proofs.Layout.Columns
import Reflow.Proofs.Layout.Margins
import Reflow.Proofs.LocalEdits

/-!
# Indentation written and taken off

Indentation leads from one column to another with as few characters as tabs and spaces can, unless
these leave the range of a word (`indentation_shortest`). Taking the common margin off some lines
takes off the longest text of tabs and spaces in front of all lines that are not blank
(`dedent_takes_margin`), so nothing is left to take off a second time.
-/

namespace Reflow.Layout

open Text List

/-! ## Shortest indentation -/

/-- In words as well, indentation leads to the column that it is meant for. Nothing shorter does
without leaving the range of a word on the way, and nothing at all if as many tabs as there are
characters do not leave it. -/
theorem indentation_shortest {start stop : UInt64} (ahead : start ≤ stop) (tabSize : UInt64)
    {written : Text} (made : indentation start.toNat stop.toNat tabSize.toNat = written) :
    wordAdvance start written tabSize = stop ∧ (∀ c ∈ written, isIndent c) ∧
      (∀ text : Text, (∀ c ∈ text, isIndent c) →
        advance start.toNat text tabSize.toNat < UInt64.size →
        wordAdvance start text tabSize = stop → written.length ≤ text.length) ∧
      (start.toNat + written.length * max tabSize.toNat 1 < UInt64.size →
        ∀ text : Text, (∀ c ∈ text, isIndent c) → wordAdvance start text tabSize = stop →
          written.length ≤ text.length) := by
  have reached : advance start.toNat written tabSize.toNat = stop.toNat := by
    rw [← made]
    exact advance_indentation (UInt64.le_iff_toNat_le.mp ahead) tabSize.toNat
  have shortest : ∀ text : Text, (∀ c ∈ text, isIndent c) →
      advance start.toNat text tabSize.toNat < UInt64.size →
      wordAdvance start text tabSize = stop → written.length ≤ text.length := by
    rintro text indents fits rfl
    have least := length_indentation_le indents start.toNat tabSize.toNat
    rwa [← toNat_wordAdvance fits, made] at least
  refine ⟨?_, fun c member => mem_indentation (made ▸ member), shortest, ?_⟩
  · apply UInt64.toNat_inj.mp
    rw [toNat_wordAdvance (by rw [reached]; exact stop.toNat_lt_size), reached]
  · intro room text indents led
    by_contra shorter
    have bound := advance_le indents start.toNat tabSize.toNat
    have fewer : text.length * max tabSize.toNat 1 ≤ written.length * max tabSize.toNat 1 :=
      Nat.mul_le_mul_right _ (by omega)
    exact shorter (shortest text indents (by omega) led)

/-- Two tabs and two spaces lead over two tab stops, and seven spaces would too. -/
theorem indentation_twoStops :
    (3 : UInt64) ≤ 10 ∧ wordAdvance 3 (indentation 3 10 4) 4 = 10 ∧
      wordAdvance 3 (spaces 7) 4 = 10 ∧ (indentation 3 10 4).length ≤ (spaces 7).length := by
  have ahead : (3 : UInt64) ≤ 10 := by decide
  obtain ⟨reached, -, -, shortest⟩ := indentation_shortest ahead 4 rfl
  have spaced : wordAdvance 3 (spaces 7) 4 = 10 := by decide
  have indents : ∀ c ∈ spaces 7, isIndent c := fun c member => by
    rw [eq_of_mem_replicate member]
    rfl
  exact ⟨ahead, reached, spaced, shortest (by decide) (spaces 7) indents spaced⟩

/-- Two tabs may leave the range of a word and come out at a column to which indentation leads by
spaces alone. -/
theorem twoTabs_shorter : ¬ ∀ start stop tabSize : UInt64, start ≤ stop →
    ∀ text : Text, (∀ c ∈ text, isIndent c) → wordAdvance start text tabSize = stop →
      (indentation start.toNat stop.toNat tabSize.toNat).length ≤ text.length := by
  intro shortest
  have wrong := shortest 5 100 9223372036854775858 (by decide) ['\t', '\t'] (by simp [isIndent])
    (by decide)
  exact absurd wrong (by decide)

/-! ## Margins that are taken off -/

/-- Results of taking one text of tabs and spaces off all lines that are not blank. -/
structure TakesOff (front : Text) (lines results : List Text) : Prop where
  indents : ∀ c ∈ front, isIndent c
  /-- A blank line becomes empty. Every other line is cut behind the text, at a byte offset that is a
  character boundary. -/
  rows : Forall₂ (fun line result =>
    if isBlankText line then result = []
    else line = front ++ result ∧ splitBytes? (byteLength front) line = some (front, result))
    lines results
  /-- Unless all lines are blank, no tabs and spaces in front of all others go further. -/
  longest : ∀ longer : Text, (∀ c ∈ longer, isIndent c) → solidLines lines ≠ [] →
    (∀ line ∈ solidLines lines, longer <+: line) → longer <+: front

/-- Taking off the margin takes one text of tabs and spaces off, the longest there is, and doing so
again changes nothing. -/
theorem dedent_takes_margin (lines : List Text) :
    (∃ front, TakesOff front lines (dedent lines)) ∧ dedent (dedent lines) = dedent lines := by
  refine ⟨⟨margin lines, indents_margin lines, ?_, fun _ => prefix_margin⟩, dedent_dedent lines⟩
  rw [dedent, forall₂_map_right_iff, forall₂_same]
  intro line member
  split
  · rfl
  · next solid =>
    have whole := margin_of_mem member (eq_false_of_ne_true solid)
    refine ⟨whole, ?_⟩
    have cut := splitBytes?_append (margin lines) (line.drop (margin lines).length)
    rwa [← whole] at cut

end Reflow.Layout
