import Mathlib.Data.Nat.Basic
import Reflow.Layout.Column
import Reflow.Text.Blank

/-!
# Columns of texts

How far a text reaches from a column, first for texts without tabs and then for tabs and spaces.
Indentation leads to the column that it is meant for (`advance_indentation`) with as few characters
as it can (`length_indentation_le`): no character brings the column closer by more than what it
saves. A column that is reached without leaving the range of a word is the same in words
(`toNat_wordAdvance`).
-/

namespace Reflow.Layout

open Text List

/-- Columns of a text with every character counted by itself. -/
def charColumns : Text → Nat
  | [] => 0
  | c :: rest => charWidth c + charColumns rest

/-- A text is as wide as its characters together. -/
def Additive (text : Text) : Prop := textWidth text = charColumns text

@[simp] theorem charColumns_append (first second : Text) :
    charColumns (first ++ second) = charColumns first + charColumns second := by
  induction first with
  | nil => exact (Nat.zero_add _).symm
  | cons c first ih => rw [cons_append, charColumns, ih, charColumns, Nat.add_assoc]

/-- The printable characters of ASCII. -/
def isPlain (c : Char) : Bool := 0x20 ≤ c.toNat && c.toNat ≤ 0x7e

/-- Each of them takes one column, whatever stands around it. -/
theorem step_plain {c : Char} (plain : isPlain c) :
    Follow.step c {} = (1, {}) ∧ charWidth c = 1 := by
  obtain ⟨low, high⟩ : 0x20 ≤ c.toNat ∧ c.toNat ≤ 0x7e := by simpa [isPlain] using plain
  have noFeed : c ≠ '\n' := by rintro rfl; exact absurd low (by decide)
  have noReturn : c ≠ '\r' := by rintro rfl; exact absurd low (by decide)
  have noControl : isControl c = false := by
    simp only [isControl, Bool.or_eq_false_iff, Bool.and_eq_false_iff, decide_eq_false_iff_not]
    omega
  have ascii : c.toNat ≤ 0xa0 := by omega
  constructor
  · simp [Follow.step, Follow.dropEmoji, ascii, noFeed, noReturn]
  · simp [charWidth, plainWidth, noControl, ascii]

theorem additive_of_plain {text : Text} (plain : text.all isPlain) :
    Additive text := by
  have measured : Text.measure text = ((text.length : Int), {}) ∧
      charColumns text = text.length := by
    induction text with
    | nil => exact ⟨rfl, rfl⟩
    | cons c rest ih =>
      obtain ⟨here, later⟩ := Bool.and_eq_true_iff.mp plain
      obtain ⟨drawn, counted⟩ := ih later
      obtain ⟨step, one⟩ := step_plain here
      constructor
      · rw [Text.measure, foldr_cons, ← Text.measure, drawn]
        simp only [step, length_cons, Int.natCast_add, Int.natCast_one]
      · rw [charColumns, one, counted, length_cons, Nat.add_comm]
  rw [Additive, textWidth, measured.1, measured.2]
  rfl

theorem advance_append (start : Nat) (first second : Text) (tabSize : Nat) :
    advance start (first ++ second) tabSize =
      advance (advance start first tabSize) second tabSize :=
  foldl_append

theorem visualWidth_append (first second : Text) (tabSize : Nat) :
    visualWidth (first ++ second) tabSize = advance (visualWidth first tabSize) second tabSize :=
  advance_append 0 first second tabSize

theorem advance_of_untabbed {text : Text} (untabbed : '\t' ∉ text) (start tabSize : Nat) :
    advance start text tabSize = start + charColumns text := by
  induction text generalizing start with
  | nil => rfl
  | cons c rest ih =>
    have plain : c ≠ '\t' := fun same => untabbed (same ▸ mem_cons_self)
    have restUntabbed : '\t' ∉ rest := fun member => untabbed (mem_cons_of_mem _ member)
    have later := ih restUntabbed (start + charWidth c)
    have first : step tabSize start c = start + charWidth c := if_neg plain
    rw [charColumns, ← Nat.add_assoc, ← later, ← first]
    rfl

/-- A text without tabs that is as wide as its characters adds its width. -/
theorem visualWidth_append_of_additive {text : Text} (untabbed : '\t' ∉ text)
    (additive : Additive text) (lead : Text) (tabSize : Nat) :
    visualWidth (lead ++ text) tabSize = visualWidth lead tabSize + textWidth text := by
  rw [visualWidth_append, advance_of_untabbed untabbed, additive]

theorem advance_spaces (start count tabSize : Nat) :
    advance start (spaces count) tabSize = start + count := by
  have untabbed : '\t' ∉ spaces count := fun member => by
    cases eq_of_mem_replicate member
  have counted : charColumns (spaces count) = count := by
    induction count with
    | zero => rfl
    | succ count ih =>
      have one : charWidth ' ' = 1 := rfl
      have later := ih fun member => untabbed (mem_cons_of_mem _ member)
      rw [spaces, replicate_succ, charColumns, one, ← spaces, later, Nat.add_comm]
  rw [advance_of_untabbed untabbed, counted]

theorem step_tab (tabSize start : Nat) :
    step tabSize start '\t' = (start / max tabSize 1 + 1) * max tabSize 1 := by
  have parts := Nat.div_add_mod' start (max tabSize 1)
  rw [step, if_pos rfl, Nat.succ_mul]
  omega

/-- A tab takes no more columns than the tab size. -/
theorem advance_tab_le {tabSize : Nat} (tabbed : 0 < tabSize) (start : Nat) :
    advance start ['\t'] tabSize ≤ start + tabSize := by
  have reached : advance start ['\t'] tabSize = start + max tabSize 1 - start % max tabSize 1 := rfl
  omega

/-- Tabs lead to the tab stop that is as many stops ahead. -/
theorem advance_tabs (start count tabSize : Nat) :
    advance start (List.replicate (count + 1) '\t') tabSize =
      (start / max tabSize 1 + (count + 1)) * max tabSize 1 := by
  have positive : 0 < max tabSize 1 := by omega
  induction count generalizing start with
  | zero => exact step_tab tabSize start
  | succ count ih =>
    have later := ih (step tabSize start '\t')
    rw [step_tab, Nat.mul_div_cancel _ positive, Nat.add_assoc, Nat.add_comm 1] at later
    rw [← later, ← step_tab]
    rfl

/-- Indentation leads to the column that it is meant for. -/
theorem advance_indentation {start stop : Nat} (ahead : start ≤ stop) (tabSize : Nat) :
    advance start (indentation start stop tabSize) tabSize = stop := by
  have parts := Nat.div_add_mod' stop (max tabSize 1)
  rw [indentation]
  split
  next stops =>
    obtain ⟨count, tabs⟩ := Nat.exists_eq_succ_of_ne_zero (Nat.ne_of_gt stops)
    have reached : start / max tabSize 1 + (count + 1) = stop / max tabSize 1 := by omega
    rw [tabs, advance_append, advance_tabs, advance_spaces, reached, parts]
  next => rw [advance_spaces, Nat.add_sub_cancel' ahead]

theorem step_mono {tabSize start start' : Nat} (ahead : start ≤ start') (c : Char) :
    step tabSize start c ≤ step tabSize start' c := by
  by_cases tab : c = '\t'
  · subst tab
    have stops : start / max tabSize 1 ≤ start' / max tabSize 1 := Nat.div_le_div_right ahead
    rw [step_tab, step_tab]
    exact Nat.mul_le_mul_right _ (Nat.succ_le_succ stops)
  · simp only [step, if_neg tab]
    omega

/-- The further a text starts, the further it ends. -/
theorem advance_mono {start start' : Nat} (ahead : start ≤ start') (text : Text)
    (tabSize : Nat) : advance start text tabSize ≤ advance start' text tabSize := by
  induction text generalizing start start' with
  | nil => exact ahead
  | cons c rest ih => exact ih (step_mono ahead c)

theorem le_advance (start : Nat) (text : Text) (tabSize : Nat) :
    start ≤ advance start text tabSize := by
  induction text generalizing start with
  | nil => exact Nat.le_refl start
  | cons c rest ih =>
    have here : start ≤ step tabSize start c := by
      have below := Nat.mod_lt start (by omega : 0 < max tabSize 1)
      rw [step]
      split <;> omega
    exact Nat.le_trans here (ih _)

@[simp] theorem indentation_self (column tabSize : Nat) : indentation column column tabSize = [] := by
  simp [indentation, spaces]

theorem mem_indentation {c : Char} {start stop tabSize : Nat}
    (member : c ∈ indentation start stop tabSize) :
    isIndent c := by
  unfold indentation at member
  dsimp only at member
  split at member
  · rcases mem_append.mp member with tab | space
    · rw [eq_of_mem_replicate tab]
      rfl
    · rw [eq_of_mem_replicate space]
      rfl
  · rw [eq_of_mem_replicate member]
    rfl

/-! ## Shortest indentation -/

theorem length_indentation (start stop tabSize : Nat) :
    (indentation start stop tabSize).length =
      if start / max tabSize 1 < stop / max tabSize 1 then
        stop / max tabSize 1 - start / max tabSize 1 + stop % max tabSize 1
      else stop - start := by
  simp only [indentation, spaces, Nat.sub_pos_iff_lt]
  split <;> simp

/-- A space saves one character of what is left at most. -/
theorem length_indentation_space {start stop : Nat} (inside : start + 1 ≤ stop) (tabSize : Nat) :
    (indentation start stop tabSize).length ≤
      (indentation (start + 1) stop tabSize).length + 1 := by
  have stopParts := Nat.div_add_mod' stop (max tabSize 1)
  rw [length_indentation, length_indentation]
  by_cases reached : max tabSize 1 ∣ start + 1
  · have next := Nat.succ_div_of_dvd reached
    have here := Nat.div_mul_cancel reached
    have ahead : start / max tabSize 1 + 1 ≤ stop / max tabSize 1 :=
      next ▸ Nat.div_le_div_right inside
    rw [next] at here ⊢
    rcases Nat.lt_or_eq_of_le ahead with further | last
    · rw [if_pos (by omega), if_pos further]
      omega
    · -- The stop is reached, and what is left are the spaces behind it.
      rw [last] at here
      rw [if_pos (by omega), if_neg (by omega)]
      omega
  · rw [Nat.succ_div_of_not_dvd reached]
    split <;> omega

theorem length_indentation_tab {start stop tabSize : Nat}
    (inside : step tabSize start '\t' ≤ stop) :
    (indentation start stop tabSize).length ≤
      (indentation (step tabSize start '\t') stop tabSize).length + 1 := by
  have stopParts := Nat.div_add_mod' stop (max tabSize 1)
  have positive : 0 < max tabSize 1 := by omega
  rw [step_tab] at inside ⊢
  have ahead : start / max tabSize 1 + 1 ≤ stop / max tabSize 1 :=
    (Nat.le_div_iff_mul_le positive).mpr inside
  rw [length_indentation, length_indentation, Nat.mul_div_cancel _ positive, if_pos (by omega)]
  rcases Nat.lt_or_eq_of_le ahead with further | here
  · rw [if_pos further]
    omega
  · rw [if_neg (by omega), here]
    omega

/-- No tabs and spaces that lead to the same column are fewer. -/
theorem length_indentation_le {text : Text} (indents : Indents text) (start tabSize : Nat) :
    (indentation start (advance start text tabSize) tabSize).length ≤ text.length := by
  -- What is left to the column is never shortened by more than the character that is written.
  induction text generalizing start with
  | nil => simp [advance]
  | cons c rest ih =>
    have later := ih (forall_mem_cons.mp indents).2
      (step tabSize start c)
    have inside := le_advance (step tabSize start c) rest tabSize
    have reached : advance start (c :: rest) tabSize =
        advance (step tabSize start c) rest tabSize := rfl
    rw [length_cons, reached]
    refine Nat.le_trans ?_ (Nat.succ_le_succ later)
    have kind := indents c mem_cons_self
    simp only [isIndent, Bool.or_eq_true, beq_iff_eq] at kind
    rcases kind with rfl | rfl
    · exact length_indentation_tab inside
    · exact length_indentation_space inside tabSize

/-- Tabs and spaces lead no further than that many tab sizes. -/
theorem advance_le {text : Text} (indents : Indents text) (start tabSize : Nat) :
    advance start text tabSize ≤ start + text.length * max tabSize 1 := by
  induction text generalizing start with
  | nil => exact Nat.le_add_right _ _
  | cons c rest ih =>
    have later := ih (forall_mem_cons.mp indents).2 (step tabSize start c)
    have here : step tabSize start c ≤ start + max tabSize 1 := by
      have kind := indents c mem_cons_self
      simp only [isIndent, Bool.or_eq_true, beq_iff_eq] at kind
      rcases kind with rfl | rfl
      · exact Nat.sub_le _ _
      · exact Nat.add_le_add_left (Nat.le_max_right tabSize 1) start
    rw [length_cons, Nat.succ_mul]
    exact Nat.le_trans later (by omega)

/-! ## Columns in words -/

theorem toNat_max_one (tabSize : UInt64) : (max tabSize 1).toNat = max tabSize.toNat 1 := by
  have chosen : max tabSize 1 = if tabSize ≤ 1 then 1 else tabSize := rfl
  have one : (1 : UInt64).toNat = 1 := rfl
  by_cases low : tabSize ≤ 1
  · rw [chosen, if_pos low, one]
    rw [UInt64.le_iff_toNat_le, one] at low
    omega
  · rw [chosen, if_neg low]
    rw [UInt64.le_iff_toNat_le, one] at low
    omega

/-- A word keeps the low part of the column. -/
theorem toNat_wordStep (tabSize column : UInt64) (c : Char) :
    (wordStep tabSize column c).toNat = step tabSize.toNat column.toNat c % UInt64.size := by
  have word : UInt64.size = 18446744073709551616 := rfl
  have small := column.toNat_lt_size
  unfold wordStep step
  dsimp only
  split
  · have below : column.toNat % max tabSize.toNat 1 ≤ column.toNat := Nat.mod_le ..
    rw [UInt64.toNat_sub, UInt64.toNat_add, UInt64.toNat_mod, toNat_max_one, word]
    rw [word] at small
    omega
  · simp [word]

/-- Columns that fit are the same in words. -/
theorem toNat_wordAdvance {start tabSize : UInt64} {text : Text}
    (fits : advance start.toNat text tabSize.toNat < UInt64.size) :
    (wordAdvance start text tabSize).toNat = advance start.toNat text tabSize.toNat := by
  induction text generalizing start with
  | nil => rfl
  | cons c rest ih =>
    have stepped := toNat_wordStep tabSize start c
    have later := le_advance (step tabSize.toNat start.toNat c) rest tabSize.toNat
    have reached : advance start.toNat (c :: rest) tabSize.toNat =
        advance (step tabSize.toNat start.toNat c) rest tabSize.toNat := rfl
    rw [reached] at fits
    rw [Nat.mod_eq_of_lt (Nat.lt_of_le_of_lt later fits)] at stepped
    rw [reached, ← stepped]
    exact ih (by rwa [stepped])

end Reflow.Layout
