import Reflow.Document.Parameters
import Reflow.Proofs.LineWidths

/-!
# Columns of a run of parameters

A space ends every sequence that is drawn as one, so the width of a text with a space in it is the
sum of the widths on both sides (`textWidth_append_space`). Hence the headers of a run are padded to
exactly the columns of the run. Where names are as wide as their characters, the text behind a
header and all continuation lines below it start at one column (`run_lines_up`). Columns are not
bounded here; those that fit in 64 bits are the same in words (`contiguousAt_words`).
-/

namespace Reflow.Text

open List Neighbour

/-! ## Widths across a space -/

/-- The columns that a character to the left may still take back. -/
def Neighbour.owed : Neighbour → Nat
  | joinedIndicator | joinedIndicators false => 1
  | ligature .tifinaghJoiner _ | ligature .khmerLetter _ => 1
  | _ => 0

theorem Neighbour.owed_le_one (neighbour : Neighbour) : neighbour.owed ≤ 1 := by
  unfold owed
  split <;> omega

theorem Ligature.owed_sequence? {kind : Ligature} {joined : Bool} {c : Char} {added : Int}
    {next : Neighbour} (found : kind.sequence? joined c = some (added, next)) :
    (next.owed : Int) ≤ (ligature kind joined).owed + added := by
  unfold Ligature.sequence? at found
  cases kind <;> cases joined <;> grind [owed]

theorem Neighbour.owed_sequence? {neighbour next : Neighbour} {c : Char} {added : Int}
    (found : neighbour.sequence? c = some (added, next)) :
    (next.owed : Int) ≤ neighbour.owed + added := by
  cases neighbour with
  | ligature kind joined => exact Ligature.owed_sequence? found
  | joinedIndicators even =>
    cases even with
    | false =>
      simp only [sequence?, Bool.not_false] at found
      grind [owed]
    | true =>
      simp only [sequence?, Bool.not_true] at found
      grind [owed]
  | joinedEmoji => grind [sequence?, joinedSequence?, owed]
  | _ => grind [sequence?, owed]

/-- A set whose ranges keep clear of an interval has no character of it. -/
theorem CharSet.contains_eq_false {set : CharSet} {low high : Nat} {c : Char}
    (clear : set.toList.all (fun range => range.2 < low || high < range.1) = true)
    (within : low ≤ c.toNat ∧ c.toNat ≤ high) : set.contains c = false := by
  rw [CharSet.contains, ← Array.any_toList, any_eq_false]
  intro range member
  have here := all_eq_true.mp clear range member
  simp only [Bool.or_eq_true, Bool.and_eq_true, decide_eq_true_iff] at here ⊢
  omega

theorem one_le_plainWidth {c : Char} (visible : zeroWidthRanges.contains c = false) :
    1 ≤ plainWidth c := by
  unfold plainWidth
  rw [visible, if_neg Bool.false_ne_true]
  split
  · exact Nat.le_refl _
  · split
    · exact Nat.le_add_left 1 2
    · split
      · exact Nat.le_add_left 1 1
      · exact Nat.le_refl _

/-- A letter that may lose its column behind a mark has a column. -/
theorem Neighbour.owed_ofChar (c : Char) : (ofChar c).owed ≤ plainWidth c := by
  by_cases letter : khmerSubscriptRanges.contains c
  · have within : 0x1780 ≤ c.toNat ∧ c.toNat ≤ 0x17af := by
      simp [CharSet.contains, khmerSubscriptRanges] at letter
      omega
    have visible : zeroWidthRanges.contains c = false :=
      CharSet.contains_eq_false (by decide +kernel) within
    exact Nat.le_trans (owed_le_one _) (one_le_plainWidth visible)
  · -- A character by itself is none of the other neighbours that owe a column.
    have nothing : (ofChar c).owed = 0 := by
      simp only [ofChar, if_neg letter, apply_ite owed]
      simp only [owed, ite_self]
    omega

theorem Neighbour.owed_step (neighbour : Neighbour) (c : Char) :
    ((neighbour.step c).2.owed : Int) ≤ neighbour.owed + (neighbour.step c).1 := by
  unfold step
  split
  · next answer found => exact owed_sequence? found
  · have letter := owed_ofChar c
    dsimp only
    omega

section Selectors

variable (follow : Follow)

theorem Follow.owed_dropEmoji : follow.dropEmoji.neighbour.owed ≤ follow.neighbour.owed := by
  unfold Follow.dropEmoji
  split
  · exact Nat.le_refl _
  · split
    · exact Nat.le_refl _
    · exact Nat.zero_le _

theorem Follow.owed_selectEmoji : follow.selectEmoji.neighbour.owed ≤ follow.neighbour.owed := by
  unfold Follow.selectEmoji
  split
  · exact Nat.le_refl _
  · split
    · exact Nat.le_refl _
    · exact Nat.zero_le _

theorem Follow.owed_selectText : follow.selectText.neighbour.owed ≤ follow.neighbour.owed := by
  unfold Follow.selectText
  split
  · exact Nat.le_refl _
  · exact Nat.zero_le _

/-- No character takes back more than is owed. -/
theorem Follow.owed_step (c : Char) :
    ((follow.step c).2.neighbour.owed : Int) ≤ follow.neighbour.owed + (follow.step c).1 := by
  have dropped := follow.owed_dropEmoji
  have emoji : emoji.owed = 0 := rfl
  have plain : plain.owed = 0 := rfl
  have feed : lineFeed.owed = 0 := rfl
  unfold Follow.step
  split
  · dsimp only
    split <;> omega
  · dsimp only
    -- What a selector puts in place of the neighbour never owes more than the neighbour did.
    generalize follow.dropEmoji = rest at dropped ⊢
    have chosen := rest.owed_selectEmoji
    have chosenText := rest.owed_selectText
    have stepped := rest.neighbour.owed_step c
    split
    · split
      · dsimp only
        omega
      · split <;> dsimp only <;> omega
    · split
      · dsimp only
        omega
      · split
        · dsimp only
          omega
        · split <;> dsimp only <;> omega

end Selectors

theorem measure_cons (c : Char) (text : Text) :
    measure (c :: text) =
      ((measure text).1 + ((measure text).2.step c).1, ((measure text).2.step c).2) :=
  rfl

/-- So no text has a negative width. -/
theorem owed_measure (text : Text) :
    ((measure text).2.neighbour.owed : Int) ≤ (measure text).1 := by
  induction text with
  | nil => exact Int.le_refl _
  | cons c rest ih =>
    have step := (measure rest).2.owed_step c
    rw [measure_cons]
    dsimp only
    omega

/-- A space takes one column and begins afresh, whatever stands to its right. -/
theorem Follow.step_space (follow : Follow) : follow.step ' ' = (1, {}) := by
  have fixed : emojiSelectableRanges.contains ' ' = false :=
    CharSet.contains_eq_false (by decide +kernel) ⟨Nat.le_refl 0x20, Nat.le_refl 0x20⟩
  simp [Follow.step, fixed]

theorem measure_append_space (first second : Text) :
    measure (first ++ ' ' :: second) =
      ((measure first).1 + 1 + (measure second).1, (measure first).2) := by
  induction first with
  | nil =>
    rw [nil_append, measure_cons, Follow.step_space]
    exact congrArg (·, _) (Int.add_comm _ _)
  | cons c rest ih =>
    rw [cons_append, measure_cons, measure_cons, ih]
    dsimp only
    congr 1
    omega

/-- A text with a space in it is as wide as its two sides and the space. -/
theorem textWidth_append_space (first second : Text) :
    textWidth (first ++ ' ' :: second) = textWidth first + 1 + textWidth second := by
  have left := owed_measure first
  have right := owed_measure second
  rw [textWidth, textWidth, textWidth, measure_append_space]
  dsimp only
  omega

end Reflow.Text

namespace Reflow.Layout

open Text List

/-! ## Padded headers -/

theorem textWidth_spaces_append (count : Nat) (text : Text) :
    textWidth (spaces count ++ text) = count + textWidth text := by
  induction count with
  | zero => exact (Nat.zero_add _).symm
  | succ count ih =>
    have split : spaces (count + 1) ++ text = [] ++ ' ' :: (spaces count ++ text) := rfl
    have nothing : textWidth [] = 0 := rfl
    rw [split, textWidth_append_space, ih, nothing]
    omega

/-- A text, a space and more spaces, with a text behind them. -/
theorem textWidth_spaced (first : Text) (count : Nat) (second : Text) :
    textWidth (first ++ ' ' :: (spaces count ++ second)) =
      textWidth first + 1 + count + textWidth second := by
  rw [textWidth_append_space, textWidth_spaces_append, Nat.add_assoc (_ + 1)]

variable {text : Text}

/-- Padding behind a space reaches the column, if the text does not reach beyond it. -/
theorem textWidth_padTo {column : Nat} (room : textWidth text + 1 ≤ column) :
    textWidth (padTo (text ++ [' ']) column) = column := by
  have nothing : textWidth [] = 0 := rfl
  have one : textWidth (text ++ [' ']) = textWidth text + 1 := textWidth_append_space text []
  have padded := textWidth_spaced text (column - (textWidth text + 1)) []
  rw [padTo, one]
  rw [append_nil, nothing] at padded
  rw [append_assoc, singleton_append, padded]
  omega

/-- A header is a marker, spaces, a name and spaces. If its columns leave room for both, the name
stands at its column and the header ends at the column of the text. -/
theorem parameterHeader_at {marker name : Text} {columns : Columns}
    (room : textWidth marker + 1 ≤ columns.nameColumn)
    (roomLater : columns.nameColumn + (textWidth name + 1) ≤ columns.textColumn) :
    ∃ gap padding, parameterHeader marker name columns =
        marker ++ ' ' :: spaces gap ++ name ++ ' ' :: spaces padding ∧
      textWidth (marker ++ ' ' :: spaces gap) = columns.nameColumn ∧
      textWidth (parameterHeader marker name columns) = columns.textColumn := by
  have front : padTo (marker ++ [' ']) columns.nameColumn =
      marker ++ ' ' :: spaces (columns.nameColumn - textWidth (marker ++ [' '])) := by simp [padTo]
  have reached := textWidth_padTo room
  rw [front] at reached
  generalize columns.nameColumn - textWidth (marker ++ [' ']) = gap at front reached
  have named : textWidth (marker ++ ' ' :: spaces gap ++ name) =
      columns.nameColumn + textWidth name := by
    have whole := textWidth_spaced marker gap name
    have alone := textWidth_spaced marker gap []
    have nothing : textWidth [] = 0 := rfl
    rw [append_nil] at alone
    rw [append_assoc, cons_append, whole]
    omega
  refine ⟨gap, columns.textColumn - textWidth (marker ++ ' ' :: spaces gap ++ name ++ [' ']), ?_,
    reached, ?_⟩
  · rw [parameterHeader, front, padTo, append_assoc _ [' '], singleton_append]
  · rw [parameterHeader, front]
    exact textWidth_padTo (by omega)

/-! ## Lines under a header -/

/-- A text is as wide as its characters together, and each of them is as wide as it counts. -/
structure CountsByCharacter (text : Text) : Prop where
  additive : Additive text
  single : ∀ c ∈ text, Additive [c]

theorem countsByCharacter_of_plain (plain : text.all isPlain) :
    CountsByCharacter text where
  additive := additive_of_plain plain
  single c member := additive_of_plain (by simpa using all_eq_true.mp plain c member)

/-- A tab has a column as a text and none as a character. -/
theorem CountsByCharacter.untabbed (counts : CountsByCharacter text) : '\t' ∉ text :=
  fun member => absurd (counts.single _ member) (by unfold Additive; decide)

/-- A space adds as much to the one width as to the other. -/
theorem CountsByCharacter.append_space {first second : Text}
    (counts : CountsByCharacter first) (countsLater : CountsByCharacter second) :
    CountsByCharacter (first ++ ' ' :: second) where
  additive := by
    have one : charWidth ' ' = 1 := rfl
    rw [Additive, textWidth_append_space, counts.additive, countsLater.additive,
      charColumns_append, charColumns, one, Nat.add_assoc]
  single c member := by
    rcases mem_append.mp member with inside | inside
    · exact counts.single c inside
    · rcases mem_cons.mp inside with rfl | inside
      · exact additive_of_plain rfl
      · exact countsLater.single c inside

theorem countsByCharacter_spaces (count : Nat) : CountsByCharacter (spaces count) :=
  countsByCharacter_of_plain (by simp [spaces, isPlain])

/-- Spaces in front of a text count by character if the text does. -/
theorem CountsByCharacter.spaces_append (counts : CountsByCharacter text) (count : Nat) :
    CountsByCharacter (spaces count ++ text) := by
  induction count with
  | zero => exact counts
  | succ count ih => exact (countsByCharacter_spaces 0).append_space ih

/-- The words of a text are written under a header, and the first word of every line stands at a
column. -/
def AlignsAt (tabSize column : Nat) (lead header text output : Text) : Prop :=
  ∃ (lines : List (List Text)) (blanks : Text),
    output = hanging lead header blanks (trimEnd (lead ++ header)) lines ∧
    lines.flatten = words text ∧ (∀ line ∈ lines, line ≠ []) ∧
    (∀ c ∈ blanks, isIndent c) ∧
    visualWidth (lead ++ header) tabSize = column ∧ visualWidth (lead ++ blanks) tabSize = column

/-- A text is aligned under a header that is as wide as its characters. -/
theorem contiguous_alignsAt (ctx : Context) (lead : Text) {header : Text}
    (counts : CountsByCharacter header) (text : Text) :
    AlignsAt ctx.style.tabSize (visualWidth lead ctx.style.tabSize + textWidth header) lead header
      text (contiguous ctx lead header text) := by
  obtain ⟨wrap, -, layout⟩ := contiguousAt_eq ctx (visualWidth lead ctx.style.tabSize)
    (visualWidth lead ctx.style.tabSize + textWidth header) lead header text
  refine ⟨wrap.fillWords (words text), _, layout, wrap.flatten_fillWords _,
    wrap.ne_nil_of_mem_fillWords _, fun _ => mem_indentation,
    visualWidth_append_of_additive counts.untabbed counts.additive lead _, ?_⟩
  rw [visualWidth_append, advance_indentation (Nat.le_add_right _ _)]

end Reflow.Layout

namespace Reflow.Document

open Text Layout List

/-! ## Runs -/

theorem le_largest {numbers : List Nat} {number : Nat} (member : number ∈ numbers) :
    number ≤ largest numbers := by
  rw [largest, foldl_max]
  exact Nat.le_trans (le_max?_getD_of_mem member) (Nat.le_max_right _ _)

/-- The columns of a run leave room for every marker and every name. -/
theorem room_columnsOf {parameters : List Parameter} {parameter : Parameter}
    (member : parameter ∈ parameters) :
    textWidth parameter.marker + 1 ≤ (columnsOf parameters).nameColumn ∧
      (columnsOf parameters).nameColumn + (textWidth parameter.name + 1) ≤
        (columnsOf parameters).textColumn := by
  have nameRoom := le_largest
    (mem_map_of_mem (f := fun parameter => textWidth parameter.name + 1) member)
  exact ⟨le_largest (mem_map_of_mem member), Nat.add_le_add_left nameRoom _⟩

theorem isPlain_marker (kind : Construct) : kind.marker.toList.all isPlain := by
  cases kind <;> decide

/-- The header of a parameter counts by character if its name does. -/
theorem countsByCharacter_header {parameters : List Parameter} {parameter : Parameter}
    (member : parameter ∈ parameters) (counts : CountsByCharacter parameter.name) :
    CountsByCharacter
      (parameterHeader parameter.marker parameter.name (columnsOf parameters)) := by
  obtain ⟨room, roomLater⟩ := room_columnsOf member
  obtain ⟨gap, padding, written, -⟩ := parameterHeader_at room roomLater
  have marker := countsByCharacter_of_plain (isPlain_marker parameter.kind)
  have named := marker.append_space (counts.spaces_append gap)
  rw [written, append_assoc parameter.marker, cons_append]
  exact named.append_space (countsByCharacter_spaces padding)

/-- A separator is written as it is. The description of a parameter is written under its header and
aligned at a column. -/
def RunEntry.AlignsAt (tabSize column : Nat) (columns : Columns) : RunEntry → Text → Prop
  | .separator line, output => output = line
  | .parameter entry, output =>
    Layout.AlignsAt tabSize column entry.lead (parameterHeader entry.marker entry.name columns)
      entry.text output

/-- In a run, every name stands at the column of names and every header ends at the column of texts.
Behind any lead and any header that is as wide as its characters together, the first words of all
lines stand at one column. So where names are as wide as their characters together and leads are
equally wide, all descriptions of a run and all their lines start at one column. -/
theorem run_lines_up :
    (∀ (parameters : List Parameter), ∀ parameter ∈ parameters,
      ∃ gap padding, parameterHeader parameter.marker parameter.name (columnsOf parameters) =
          parameter.marker ++ ' ' :: spaces gap ++ parameter.name ++ ' ' :: spaces padding ∧
        textWidth (parameter.marker ++ ' ' :: spaces gap) = (columnsOf parameters).nameColumn ∧
        textWidth (parameterHeader parameter.marker parameter.name (columnsOf parameters)) =
          (columnsOf parameters).textColumn) ∧
    (∀ (ctx : Context) (lead header text : Text), CountsByCharacter header →
      AlignsAt ctx.style.tabSize (visualWidth lead ctx.style.tabSize + textWidth header) lead header
        text (contiguous ctx lead header text)) ∧
    (∀ (ctx : Context) (leadWidth : Nat) (entries : List RunEntry),
      (∀ parameter, .parameter parameter ∈ entries →
        CountsByCharacter parameter.name ∧
        visualWidth parameter.lead ctx.style.tabSize = leadWidth) →
      let columns := columnsOf (entries.filterMap RunEntry.parameter?)
      ∃ pieces, composeRun ctx entries = pieces.flatten ∧
        Forall₂ (RunEntry.AlignsAt ctx.style.tabSize (leadWidth + columns.textColumn) columns)
          entries pieces) := by
  refine ⟨?_, ?_, ?_⟩
  · intro parameters parameter member
    obtain ⟨room, roomLater⟩ := room_columnsOf member
    exact parameterHeader_at room roomLater
  · intro ctx lead header text counts
    exact contiguous_alignsAt ctx lead counts text
  · intro ctx leadWidth entries alike columns
    refine ⟨entries.map (RunEntry.compose ctx columns), flatMap_def .., ?_⟩
    rw [forall₂_map_right_iff, forall₂_same]
    intro entry member
    cases entry with
    | separator line => exact rfl
    | parameter parameter =>
      obtain ⟨counts, same⟩ := alike parameter member
      have listed : parameter ∈ entries.filterMap RunEntry.parameter? :=
        mem_filterMap.mpr ⟨_, member, rfl⟩
      obtain ⟨room, roomLater⟩ := room_columnsOf listed
      obtain ⟨_, _, -, -, reached⟩ := parameterHeader_at room roomLater
      have aligned := contiguous_alignsAt ctx parameter.lead
        (countsByCharacter_header listed counts) parameter.text
      rwa [same, reached] at aligned

/-- Two parameters behind leads of seven columns, of which one has a tab, and a separator. -/
def unevenRun : List RunEntry :=
  [.parameter ⟨.param, [⟨"\t * ".toList, "x".toList, "aaa bbbb".toList⟩]⟩,
    .separator "\t *\n".toList,
    .parameter ⟨.tparam, [⟨"     * ".toList, "Tag".toList, "cc ddddd".toList⟩]⟩]

theorem unevenRun_lines_up :
    composeRun narrowContext unevenRun =
      ("\t * @param  x   aaa\n\t * \t\t\t   bbbb\n" ++ "\t *\n" ++
        "     * @tparam Tag cc\n     * \t\t\t   ddddd\n").toList ∧
    textWidth (parameterHeader "@param".toList "x".toList ⟨8, 12⟩) = 12 ∧
    AlignsAt 4 19 "\t * ".toList "@param  x   ".toList "aaa bbbb".toList
      "\t * @param  x   aaa\n\t * \t\t\t   bbbb\n".toList ∧
    ∃ pieces, composeRun narrowContext unevenRun = pieces.flatten ∧
      Forall₂ (RunEntry.AlignsAt 4 19 ⟨8, 12⟩) unevenRun pieces := by
  obtain ⟨headers, lines, runs⟩ := run_lines_up
  have columns : columnsOf (unevenRun.filterMap RunEntry.parameter?) = ⟨8, 12⟩ := by decide
  have alike : ∀ parameter, .parameter parameter ∈ unevenRun →
      CountsByCharacter parameter.name ∧
      visualWidth parameter.lead narrowContext.style.tabSize = 7 := by
    intro parameter member
    simp only [unevenRun, mem_cons, RunEntry.parameter.injEq, reduceCtorEq, false_or,
      not_mem_nil, or_false] at member
    rcases member with rfl | rfl
    · exact ⟨countsByCharacter_of_plain rfl, by decide⟩
    · exact ⟨countsByCharacter_of_plain rfl, by decide⟩
  have header := headers (unevenRun.filterMap RunEntry.parameter?) _ mem_cons_self
  have line := lines narrowContext "\t * ".toList "@param  x   ".toList "aaa bbbb".toList
    (countsByCharacter_of_plain rfl)
  have written : contiguous narrowContext "\t * ".toList "@param  x   ".toList "aaa bbbb".toList =
      "\t * @param  x   aaa\n\t * \t\t\t   bbbb\n".toList := by decide
  have run := runs narrowContext 7 unevenRun alike
  rw [columns] at header run
  rw [written] at line
  obtain ⟨_, _, -, -, reached⟩ := header
  exact ⟨by decide, reached, line, run⟩

end Reflow.Document
