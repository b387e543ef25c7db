import Reflow.Proofs.BuiltGrammar

/-!
# Reading line by line

A text falls into lines that end with a line break and a rest without one (`exists_unlines`). Runs
of characters that are no line breaks end within their line.
-/

namespace Reflow

open List

namespace Text

/-- Lines with their line breaks. -/
def unlines (lines : List Text) : Text := lines.flatMap (· ++ ['\n'])

@[simp] theorem unlines_nil : unlines [] = [] := rfl

theorem unlines_cons (line : Text) (lines : List Text) :
    unlines (line :: lines) = line ++ '\n' :: unlines lines := by
  simp [unlines]

theorem unlines_append (first second : List Text) :
    unlines (first ++ second) = unlines first ++ unlines second := by
  simp [unlines]

theorem unlines_eq_nil {lines : List Text} (empty : unlines lines = []) : lines = [] := by
  cases lines with
  | nil => rfl
  | cons line rest =>
    rw [unlines_cons] at empty
    simp at empty

theorem length_lt_unlines (lines : List Text) (tail : Text) :
    lines.length < (unlines lines ++ tail).length + 1 := by
  induction lines with
  | nil => simp
  | cons line lines ih =>
    simp only [unlines_cons, length_append, length_cons] at ih ⊢
    omega

/-- None of some lines holds a line break. -/
def Unbroken (lines : List Text) : Prop := ∀ line ∈ lines, '\n' ∉ line

theorem Unbroken.tail {line : Text} {lines : List Text}
    (unbroken : Unbroken (line :: lines)) : Unbroken lines :=
  (forall_mem_cons.mp unbroken).2

theorem exists_unlines (text : Text) :
    ∃ lines tail, text = unlines lines ++ tail ∧ Unbroken lines ∧ '\n' ∉ tail := by
  induction text with
  | nil => exact ⟨[], [], rfl, by simp [Unbroken], by simp⟩
  | cons c rest ih =>
    obtain ⟨lines, tail, rfl, unbroken, last⟩ := ih
    by_cases breaks : c = '\n'
    · subst breaks
      refine ⟨[] :: lines, tail, by simp [unlines_cons], ?_, last⟩
      intro line member
      rcases mem_cons.mp member with rfl | member
      · exact not_mem_nil
      · exact unbroken line member
    · cases lines with
      | nil =>
        refine ⟨[], c :: tail, rfl, by simp [Unbroken], ?_⟩
        simpa [Ne.symm breaks] using last
      | cons line lines =>
        refine ⟨(c :: line) :: lines, tail, by simp [unlines_cons], ?_, last⟩
        intro other member
        rcases mem_cons.mp member with rfl | member
        · simpa [Ne.symm breaks] using unbroken line mem_cons_self
        · exact unbroken.tail other member

theorem not_mem_dropWhile {text : Text} (test : Char → Bool) (unbroken : '\n' ∉ text) :
    '\n' ∉ text.dropWhile test :=
  fun member => unbroken ((dropWhile_sublist _).subset member)

theorem all_eq_isEmpty_dropWhile (test : Char → Bool) (text : Text) :
    text.all test = (text.dropWhile test).isEmpty := by
  induction text with
  | nil => rfl
  | cons c rest ih => cases taken : test c <;> simp [taken, ih]

theorem dropWhile_refuses {α : Type} (test : α → Bool) (items : List α) :
    ∀ item ∈ (items.dropWhile test).head?, test item = false := by
  intro item first
  have refused := List.head?_dropWhile_not test items
  rw [first] at refused
  exact refused

/-- A run that is stopped by what stands behind it is found again. -/
theorem takeWhile_stop {α : Type} {test : α → Bool} {front rest : List α}
    (all : ∀ c ∈ front, test c) (stop : ∀ c ∈ rest.head?, test c = false) :
    (front ++ rest).takeWhile test = front ∧ (front ++ rest).dropWhile test = rest := by
  rw [takeWhile_append_of_pos all, dropWhile_append_of_pos all]
  cases rest with
  | nil => simp
  | cons c rest =>
    have refused := stop c rfl
    simp [refused]

/-- The first of the lines of a text. -/
theorem lines_line {line : Text} (rest : Text) (unbroken : '\n' ∉ line) :
    lines (line ++ '\n' :: rest) = (line ++ ['\n']) :: lines rest := by
  induction line with
  | nil => simp [lines]
  | cons c line ih =>
    have other : ¬ c = '\n' := fun same => unbroken (same ▸ mem_cons_self)
    have later := ih fun member => unbroken (mem_cons_of_mem _ member)
    rw [cons_append, lines, if_neg other, later]
    rfl

variable (test : Char → Bool) (stop : test '\n' = false) (line rest : Text)

include stop

/-- A run of characters that are no line breaks ends within the line. -/
theorem takeWhile_line : (line ++ '\n' :: rest).takeWhile test = line.takeWhile test := by
  induction line with
  | nil => simp [stop]
  | cons c line ih => by_cases taken : test c <;> simp [taken, ih]

theorem dropWhile_line :
    (line ++ '\n' :: rest).dropWhile test = line.dropWhile test ++ '\n' :: rest := by
  induction line with
  | nil => simp [stop]
  | cons c line ih => by_cases taken : test c <;> simp [taken, ih]

end Text

end Reflow
