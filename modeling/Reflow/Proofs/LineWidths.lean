import Reflow.Proofs.Layout.Lines
import Reflow.Proofs.LineRuns
import Reflow.Proofs.Wrapping

/-!
# Widths of the lines that are written

The three ways to write a paragraph measure what stands before the text, leave the rest of the width
to the wrap and write each line behind its front. The wrap measures units as drawn, a line is
measured character by character with its tabs expanded. Where the two measures agree on the units,
no line with more than one unit is wider than the style allows (`paragraph_within_width`). Columns
are not bounded here; those that fit in 64 bits are the same in words (`contiguousAt_words`).
-/

namespace Reflow.Layout

open Text List

/-! ## Rows -/

/-- A written line: what stands before the text, and the units of the text on it. -/
structure Row where
  front : Text
  run : Run

def Row.text (row : Row) : Text := row.front ++ joinWords row.run.flatten

/-- The rows of some runs. The first stands behind one text and all others behind another. -/
def rows (first later : Text) : List Run → List Row
  | [] => []
  | run :: runs => ⟨first, run⟩ :: runs.map fun run => ⟨later, run⟩

/-- A row with more than one unit is no wider than the style allows. Nor is any end of it, which is
what a reader sees of a row whose front holds a line break. -/
def Row.Bounded (style : Style) (row : Row) : Prop :=
  1 < row.run.length →
    ∀ line, line <:+ row.text → visualWidth line style.tabSize ≤ style.width

/-- A text is written in rows that hold its units and are bounded, or as a bare line if it has no
words. -/
def WritesWithin (ctx : Context) (text bare first later output : Text) : Prop :=
  ∃ runs : List Run, runs.flatten = units ctx.sticky (words text) ∧ (∀ run ∈ runs, run ≠ []) ∧
    output = (if runs = [] then bare else unlines ((rows first later runs).map Row.text)) ∧
    ∀ row ∈ rows first later runs, row.Bounded ctx.style

/-- A line takes the columns that were counted for its units. -/
theorem charColumns_joinWords {run : Run} (someWord : ∀ unit ∈ run, unit ≠ [])
    (additive : ∀ unit ∈ run, Additive (joinWords unit)) :
    charColumns (joinWords run.flatten) = runWidth run := by
  induction run with
  | nil => rfl
  | cons unit rest ih =>
    have here : unitWidth unit = charColumns (joinWords unit) := additive unit mem_cons_self
    have later := ih (forall_mem_cons.mp someWord).2
      (forall_mem_cons.mp additive).2
    cases rest with
    | nil => rw [flatten_singleton, runWidth, here]
    | cons next rest =>
      have someWordHere := someWord unit mem_cons_self
      have more : (next :: rest).flatten ≠ [] := by
        have someWordNext := someWord next (by simp)
        rw [flatten_cons]
        exact append_ne_nil_of_left_ne_nil someWordNext _
      have one : charWidth ' ' = 1 := rfl
      rw [flatten_cons, joinWords_append someWordHere more, charColumns_append,
        charColumns, later, one, ← here, runWidth]
      omega

/-- A row of units of a text is bounded if they fit into what its front leaves of the width. -/
theorem Row.bounded {ctx : Context} {text : Text} {row : Row} {budget : Nat}
    (additive : ∀ unit ∈ units ctx.sticky (words text), Additive (joinWords unit))
    (listed : ∀ unit ∈ row.run, unit ∈ units ctx.sticky (words text)) (fits : FitsIn budget row.run)
    (room : budget ≤ ctx.style.width - visualWidth row.front ctx.style.tabSize) :
    row.Bounded ctx.style := by
  rintro several line ⟨before, split⟩
  generalize ctx.style = style at room ⊢
  have someWord : ∀ unit ∈ row.run, unit ≠ [] := by
    rintro unit inside rfl
    exact isUnit_of_mem_units _ _ _ (listed _ inside)
  have untabbed : '\t' ∉ joinWords row.run.flatten := by
    intro member
    rcases mem_joinWords member with space | ⟨word, inside, found⟩
    · cases space
    · obtain ⟨unit, held, inside⟩ := mem_flatten.mp inside
      have inText : word ∈ words text := by
        rw [← flatten_units ctx.sticky (words text)]
        exact mem_flatten.mpr ⟨unit, listed unit held, inside⟩
      cases (isWord_of_mem_words inText).solid _ found
  have whole : visualWidth row.text style.tabSize =
      visualWidth row.front style.tabSize + runWidth row.run := by
    rw [Row.text, visualWidth_append, advance_of_untabbed untabbed,
      charColumns_joinWords someWord fun unit inside => additive unit (listed unit inside)]
  have within : runWidth row.run ≤ budget := fits.resolve_left (by omega)
  -- Two units have a space between them, so there is a budget and no subtraction was cut short.
  have space : 0 < runWidth row.run := by
    obtain ⟨unit, rest, front⟩ := exists_cons_of_length_pos (Nat.zero_lt_of_lt several)
    have someUnit : rest ≠ [] := by
      rintro rfl
      rw [front, length_singleton] at several
      omega
    have cut : runWidth row.run = unitWidth unit + 1 + runWidth rest := by
      rw [front]
      exact runWidth_append (cons_ne_nil unit []) someUnit
    omega
  calc visualWidth line style.tabSize
      ≤ advance (visualWidth before style.tabSize) line style.tabSize :=
        advance_mono (Nat.zero_le _) line _
    _ = visualWidth row.text style.tabSize := by rw [← visualWidth_append, split]
    _ ≤ style.width := by omega

theorem unlines_rows (first later : Text) (run : Run) (runs : List Run) :
    unlines ((rows first later (run :: runs)).map Row.text) =
      first ++ joinWords run.flatten ++ ['\n'] ++
        leadLines later (runs.map fun run => joinWords run.flatten) := by
  simp [rows, unlines, leadLines, Row.text, flatMap_map]

theorem leadLines_eq (lead : Text) (lines : List Text) :
    leadLines lead lines = match lines with
      | [] => []
      | line :: lines => lead ++ line ++ ['\n'] ++ leadLines lead lines := by
  cases lines <;> simp [leadLines]

/-- A wrap that leaves room for what stands before its lines fills bounded rows. -/
theorem Wrap.writesWithin {ctx : Context} {wrap : Wrap} {text bare first later output : Text}
    (sticky : wrap.sticky = ctx.sticky)
    (additive : ∀ unit ∈ units ctx.sticky (words text), Additive (joinWords unit))
    (room : wrap.width - wrap.initial ≤ ctx.style.width - visualWidth first ctx.style.tabSize)
    (laterRoom : wrap.width - wrap.later ≤ ctx.style.width - visualWidth later ctx.style.tabSize)
    (written : output = match wrap.lines text with
      | [] => bare
      | line :: lines => first ++ line ++ ['\n'] ++ leadLines later lines) :
    WritesWithin ctx text bare first later output := by
  obtain ⟨runs, same, filling⟩ := wrap.lines_isFilling text
  rw [sticky] at filling
  rw [same] at written
  have listed : ∀ run ∈ runs, ∀ unit ∈ run, unit ∈ units ctx.sticky (words text) := by
    intro run member unit inside
    rw [← filling.cut]
    exact mem_flatten.mpr ⟨run, member, inside⟩
  refine ⟨runs, filling.cut, filling.someUnit, ?_, ?_⟩
  · cases runs with
    | nil => exact written
    | cons run runs => rwa [if_neg (cons_ne_nil _ _), unlines_rows]
  · cases runs with
    | nil => intro row member; cases member
    | cons run runs =>
      intro row member
      rcases mem_cons.mp member with rfl | member
      · exact Row.bounded additive (listed run mem_cons_self) (filling.first run rfl) room
      · obtain ⟨other, inside, rfl⟩ := mem_map.mp member
        exact Row.bounded additive (listed other (mem_cons_of_mem _ inside))
          (filling.below other inside) laterRoom

/-- Assume that a text is as wide as its characters together, for the units of a paragraph, for its
header and for its bullet. If the paragraph is written behind a header, below a head line, or behind
a bullet, then no line of it with more than one unit is wider than the style allows. -/
theorem paragraph_within_width (ctx : Context) (text : Text)
    (additive : ∀ unit ∈ units ctx.sticky (words text), Additive (joinWords unit)) :
    (∀ lead header, '\t' ∉ header → Additive header →
      WritesWithin ctx text (trimEnd (lead ++ header) ++ ['\n']) (lead ++ header)
        (lead ++ indentation (visualWidth lead ctx.style.tabSize)
          (visualWidth lead ctx.style.tabSize + textWidth header) ctx.style.tabSize)
        (contiguous ctx lead header text)) ∧
    (∀ head bodyLead, ∃ body, breaking ctx head bodyLead text = trimEnd head ++ ['\n'] ++ body ∧
      WritesWithin ctx text [] bodyLead bodyLead body) ∧
    (∀ lead start, '\t' ∉ start → Additive start →
      WritesWithin ctx text (lead ++ start ++ ['\n']) (lead ++ start) (lead ++ ['\t'])
        (bullet ctx lead start text)) := by
  refine ⟨?_, ?_, ?_⟩
  · intro lead header untabbed measured
    have first := visualWidth_append_of_additive untabbed measured lead ctx.style.tabSize
    refine Wrap.writesWithin rfl additive ?_ ?_ rfl
    · rw [first]
      exact Nat.le_refl _
    · rw [visualWidth_append, advance_indentation (Nat.le_add_right _ _)]
      exact Nat.le_refl _
  · intro head bodyLead
    refine ⟨_, rfl, Wrap.writesWithin rfl additive ?_ ?_ (leadLines_eq _ _)⟩
    · exact Nat.le_refl _
    · exact Nat.le_refl _
  · intro lead start untabbed measured
    have first := visualWidth_append_of_additive untabbed measured lead ctx.style.tabSize
    have later : visualWidth (lead ++ ['\t']) ctx.style.tabSize ≤
        visualWidth lead ctx.style.tabSize + ctx.style.tabSize := by
      rw [visualWidth_append]
      exact advance_tab_le ctx.style.tabSize_pos _
    refine Wrap.writesWithin rfl additive ?_ ?_ rfl
    · rw [first, Context.wrapBullet]
      dsimp only
      omega
    · rw [Context.wrapBullet]
      dsimp only
      omega

/-- Lines of 24 columns with a tab stop at every fourth. -/
def narrowContext : Context := { style := Style.ofSizes 24 4 }

/-- Four words, which do not fit on one of these lines behind a lead of seven columns. -/
def fourWords : Text := "aaa bbbb cc ddddd".toList

theorem fourWords_within_width :
    contiguous narrowContext "\t * ".toList "@p x ".toList fourWords =
      "\t * @p x aaa bbbb cc\n\t * \t\tddddd\n".toList ∧
    WritesWithin narrowContext fourWords "\t * @p x\n".toList "\t * @p x ".toList
      "\t * \t\t".toList "\t * @p x aaa bbbb cc\n\t * \t\tddddd\n".toList ∧
    bullet narrowContext "\t * ".toList "- ".toList fourWords =
      "\t * - aaa bbbb cc\n\t * \tddddd\n".toList ∧
    WritesWithin narrowContext fourWords "\t * - \n".toList "\t * - ".toList "\t * \t".toList
      "\t * - aaa bbbb cc\n\t * \tddddd\n".toList := by
  have additive : ∀ unit ∈ units narrowContext.sticky (words fourWords),
      Additive (joinWords unit) := by
    intro unit member
    apply additive_of_plain
    revert unit
    decide
  have headed : contiguous narrowContext "\t * ".toList "@p x ".toList fourWords =
      "\t * @p x aaa bbbb cc\n\t * \t\tddddd\n".toList := by decide
  have bulleted : bullet narrowContext "\t * ".toList "- ".toList fourWords =
      "\t * - aaa bbbb cc\n\t * \tddddd\n".toList := by decide
  obtain ⟨behind, -, below⟩ := paragraph_within_width narrowContext fourWords additive
  have first := behind "\t * ".toList "@p x ".toList (by decide)
    (additive_of_plain rfl)
  have second := below "\t * ".toList "- ".toList (by decide) (additive_of_plain rfl)
  rw [headed] at first
  rw [bulleted] at second
  exact ⟨headed, first, bulleted, second⟩

end Reflow.Layout
