import Reflow.Proofs.Layout.Filling

/-!
# Wrapping a text

The lines of a wrapped text hold its words in their order, with single spaces between them, and only
the first line may begin with a sticky word (`Wrap.lines_words`). No other way to break the units of
the text into lines that keep to their budgets has fewer lines (`Wrap.lines_fewest`). For the second
fact, a line of a filling reaches at least as far as the line of any other layout does if it begins
as far: the next unit would not have fitted.
-/

namespace Reflow.Layout

open Text List

/-! ## The words of the lines -/

/-- Pieces joined with spaces hold the words of the pieces. -/
theorem words_joinWords_pieces (pieces : List Text) :
    words (joinWords pieces) = pieces.flatMap words := by
  induction pieces with
  | nil => rfl
  | cons piece rest ih =>
    cases rest with
    | nil => exact (append_nil _).symm
    | cons next rest =>
      rw [joinWords_cons_cons, words_append_blank rfl, ih]
      rfl

/-- The words of the lines are what was filled into them. -/
theorem Wrap.map_words_lines (wrap : Wrap) (text : Text) :
    (wrap.lines text).map words = wrap.fillWords (words text) := by
  have isWord := wrap.isWord_of_mem_lines text
  rw [Wrap.lines, map_map]
  refine (map_congr_left fun line member => ?_).trans (map_id _)
  exact words_joinWords (isWord line member)

/-- Wrapping keeps the words of a text and their order, and writes one space between the words of a
line. No line but the first begins with a sticky word, and the first begins as the text does. Only
the words of a text matter, so wrapping the joined lines gives the same lines. -/
theorem Wrap.lines_words (wrap : Wrap) (text : Text) :
    (wrap.lines text).flatMap words = words text ∧
    (∀ line ∈ wrap.lines text, words line ≠ [] ∧ line = joinWords (words line)) ∧
    (∀ line ∈ (wrap.lines text).tail, ∀ word ∈ (words line).head?, wrap.sticky word = false) ∧
    (∀ line ∈ (wrap.lines text).head?, (words line).head? = (words text).head?) ∧
    (∀ other, words other = words text → wrap.lines other = wrap.lines text) ∧
    wrap.lines (joinWords (wrap.lines text)) = wrap.lines text := by
  have filled := wrap.map_words_lines text
  have whole : (wrap.lines text).flatMap words = words text := by
    rw [List.flatMap, filled, flatten_fillWords]
  have sameWords : ∀ other, words other = words text → wrap.lines other = wrap.lines text :=
    fun other same => by rw [Wrap.lines, Wrap.lines, same]
  have someWord : ∀ line ∈ wrap.lines text, words line ≠ [] := fun line member =>
    wrap.ne_nil_of_mem_fillWords _ _ (filled ▸ mem_map_of_mem member)
  refine ⟨whole, ?_, ?_, ?_, sameWords, sameWords _ ?_⟩
  · intro line member
    refine ⟨someWord line member, ?_⟩
    obtain ⟨held, inside, rfl⟩ := mem_map.mp member
    have isWord := wrap.isWord_of_mem_lines text held inside
    rw [words_joinWords isWord]
  · intro line member word first
    have below : words line ∈ (wrap.fillWords (words text)).tail := by
      rw [← filled, ← map_tail]
      exact mem_map_of_mem member
    obtain ⟨front, rest, begins, free⟩ := wrap.begin_of_mem_tail_fillWords _ _ below
    rw [begins] at first
    cases first
    exact free
  · intro line first
    obtain ⟨later, split⟩ := List.head?_eq_some_iff.mp first
    rw [split, flatMap_cons] at whole
    have here := someWord line (split ▸ mem_cons_self)
    obtain ⟨word, others, begins⟩ := exists_cons_of_ne_nil here
    rw [← whole, begins]
    rfl
  · rw [words_joinWords_pieces, whole]

/-- Words that look like a tag stay with the word before them. -/
def tagWrap : Wrap := { width := 8, initial := 2, sticky := fun word => word.head? == some '@' }

/-- A text with such a word, longer blanks and a line break. -/
def tagSentence : Text := " use  the\n@param tag".toList

theorem tagSentence_words :
    tagWrap.lines tagSentence = ["use".toList, "the @param".toList, "tag".toList] ∧
    (∀ line ∈ ["the @param".toList, "tag".toList],
      ∀ word ∈ (words line).head?, tagWrap.sticky word = false) ∧
    tagWrap.lines "use the @param tag".toList = tagWrap.lines tagSentence := by
  obtain ⟨-, -, free, -, -, again⟩ := tagWrap.lines_words tagSentence
  have lines : tagWrap.lines tagSentence = ["use".toList, "the @param".toList, "tag".toList] := by
    decide
  rw [lines] at free again ⊢
  exact ⟨rfl, free, again⟩

/-! ## The number of lines -/

theorem runWidth_le_append (front run back : Run) :
    runWidth run ≤ runWidth (front ++ run ++ back) := by
  by_cases noUnit : run = []
  · rw [noUnit]
    exact Nat.zero_le _
  have behind : runWidth run ≤ runWidth (run ++ back) := by
    cases back with
    | nil => exact Nat.le_of_eq (congrArg runWidth (append_nil run).symm)
    | cons unit back =>
      rw [runWidth_append noUnit (cons_ne_nil unit back)]
      omega
  have someUnit : run ++ back ≠ [] := append_ne_nil_of_left_ne_nil noUnit back
  rw [append_assoc]
  cases front with
  | nil => exact behind
  | cons unit front =>
    rw [runWidth_append (cons_ne_nil unit front) someUnit]
    omega

/-- Units that may share a line with others may share one without them. -/
theorem FitsIn.of_append {budget : Nat} {front run back : Run} (several : 1 < run.length)
    (fits : FitsIn budget (front ++ run ++ back)) : FitsIn budget run := by
  rcases fits with single | room
  · rw [length_append, length_append] at single
    omega
  · exact .inr (Nat.le_trans (runWidth_le_append front run back) room)

/-- A line that the unit behind it would not have fitted on ends no earlier than a line of another
layout that begins no later. -/
theorem exists_ahead {budget : Nat} {extra run rest line below : Run} {unit : List Text}
    (someUnit : run ≠ []) (tooWide : ¬ FitsIn budget (run ++ [unit])) (fits : FitsIn budget line)
    (ahead : line ++ below = extra ++ (run ++ unit :: rest)) :
    ∃ extra, below = extra ++ unit :: rest := by
  rw [← append_assoc] at ahead
  rcases append_eq_append_iff.mp ahead with ⟨beyond, _, short⟩ | ⟨beyond, long, short⟩
  · exact ⟨beyond, short⟩
  · cases beyond with
    | nil => exact ⟨[], short.symm⟩
    | cons first more =>
      -- The other line would hold this one and the unit behind it.
      obtain ⟨rfl, _⟩ := List.cons.inj short
      have inside : FitsIn budget (extra ++ (run ++ [unit]) ++ more) := by simpa [long] using fits
      exact absurd (inside.of_append (one_lt_length_concat someUnit unit)) tooWide

/-- A filling has no more lines than a layout of the same units, even if the layout has more units
to place in front of them. -/
theorem IsFilling.length_le {later budget : Nat} {groups extra : Run} {runs other : List Run}
    (filling : IsFilling later budget groups runs)
    (layout : IsLayout later budget (extra ++ groups) other) : runs.length ≤ other.length := by
  -- Line by line, what is left to the filling is an end of what is left to the other layout. Both
  -- have the same budget for the line, since both pass from the first one to the others together.
  induction other generalizing budget groups extra runs with
  | nil =>
    obtain ⟨-, rfl⟩ := append_eq_nil_iff.mp layout.cut.symm
    cases runs with
    | nil => exact Nat.le_refl _
    | cons run runs =>
      have empty := append_eq_nil_iff.mp filling.cut
      exact absurd empty.1 (filling.someUnit run mem_cons_self)
  | cons line below ih =>
    rcases runs with _ | ⟨run, _ | ⟨next, runs⟩⟩
    · exact Nat.zero_le _
    · exact Nat.succ_le_succ (Nat.zero_le _)
    · obtain ⟨unit, others, rfl⟩ :=
        exists_cons_of_ne_nil (filling.someUnit next (by simp))
      have cut : line ++ below.flatten = extra ++ (run ++ unit :: (others ++ runs.flatten)) := by
        rw [← flatten_cons, layout.cut, ← filling.cut]
        rfl
      obtain ⟨extra, ahead⟩ := exists_ahead (filling.someUnit run (by simp))
        (filling.full.1 unit rfl) (layout.first line rfl) cut
      have layout := layout.tail
      rw [ahead] at layout
      exact Nat.succ_le_succ (ih filling.tail layout)

/-- The lines of a text are its units, each a word and the sticky words after it, broken into lines
that keep to their budgets. No other such lines are fewer. -/
theorem Wrap.lines_fewest (wrap : Wrap) (text : Text) :
    ((units wrap.sticky (words text)).flatten = words text ∧
      (∀ unit ∈ units wrap.sticky (words text), IsUnit wrap.sticky unit) ∧
      ∀ unit ∈ (units wrap.sticky (words text)).tail, BeginsFree wrap.sticky unit) ∧
    ∃ runs : List Run, wrap.lines text = runs.map (fun run => joinWords run.flatten) ∧
      (∀ run ∈ runs, run ≠ []) ∧
      IsLayout (wrap.width - wrap.later) (wrap.width - wrap.initial)
        (units wrap.sticky (words text)) runs ∧
      ∀ other, IsLayout (wrap.width - wrap.later) (wrap.width - wrap.initial)
        (units wrap.sticky (words text)) other → runs.length ≤ other.length := by
  refine ⟨⟨flatten_units _ _, isUnit_of_mem_units _ _, beginsFree_of_mem_tail_units _ _⟩, ?_⟩
  obtain ⟨runs, same, filling⟩ := wrap.lines_isFilling text
  refine ⟨runs, same, filling.someUnit, filling.toIsLayout, ?_⟩
  intro other layout
  exact @IsFilling.length_le _ _ _ [] _ _ filling layout

/-- The unit in the middle is wider than a line. -/
theorem tagSentence_fewest :
    units tagWrap.sticky (words tagSentence) =
      [["use".toList], ["the".toList, "@param".toList], ["tag".toList]] ∧
    ∀ other, IsLayout 8 6 (units tagWrap.sticky (words tagSentence)) other → 3 ≤ other.length := by
  refine ⟨by decide, fun other layout => ?_⟩
  obtain ⟨-, runs, same, -, -, fewest⟩ := tagWrap.lines_fewest tagSentence
  have three : runs.length = 3 := by
    rw [← length_map, ← same]
    decide
  exact three ▸ fewest other layout

end Reflow.Layout
