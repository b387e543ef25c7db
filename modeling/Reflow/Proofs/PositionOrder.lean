import Reflow.Proofs.LineScopes

/-!
# Places in order

The line of an offset is a count of line breaks and its column a count of characters, and neither
looks at the table of line spans. Both are told by what one more character does to a place
(`Position.behind_concat`). So places come in the order of their offsets, an offset inside a
character has the place of the character's first byte, and the table finds the line that the count
gives (`positions_ordered`).
-/

namespace Reflow.Text

open List Position

/-! ## Boundaries -/

/-- An offset between two characters of a text, or at an end of it. -/
def IsBoundary (text : Text) (offset : Nat) : Prop :=
  ∃ before after, text = before ++ after ∧ byteLength before = offset

/-- The last boundary of a text that an offset does not lie before, if the offset counts as the end
where it lies behind the end. -/
structure IsNearest (text : Text) (offset boundary : Nat) : Prop where
  between : IsBoundary text boundary
  below : boundary ≤ min offset (byteLength text)
  greatest : ∀ other, IsBoundary text other → other ≤ min offset (byteLength text) →
    other ≤ boundary

theorem takeBytes_append_dropBytes (offset : Nat) (text : Text) :
    takeBytes offset text ++ dropBytes offset text = text := by
  induction text generalizing offset with
  | nil => rfl
  | cons c rest ih =>
    rw [takeBytes, dropBytes]
    split
    · rw [cons_append, ih]
    · rfl

theorem byteLength_takeBytes_le (offset : Nat) (text : Text) :
    byteLength (takeBytes offset text) ≤ offset := by
  induction text generalizing offset with
  | nil => exact Nat.zero_le _
  | cons c rest ih =>
    rw [takeBytes]
    split
    · next fits =>
      have later := ih (offset - c.utf8Size)
      rw [byteLength]
      omega
    · exact Nat.zero_le _

variable {offset : Nat} {text line : Text}

/-- A front that fits is taken as a whole. -/
theorem takeBytes_append_of_le {front : Text} (fits : byteLength front ≤ offset) (back : Text) :
    takeBytes offset (front ++ back) = front ++ takeBytes (offset - byteLength front) back := by
  induction front generalizing offset with
  | nil => rfl
  | cons c front ih =>
    rw [byteLength] at fits
    rw [cons_append, takeBytes, if_pos (by omega), ih (by omega), byteLength, Nat.sub_sub,
      cons_append]

/-- What does not fit whole is taken from the front alone. -/
theorem takeBytes_append_of_lt {front : Text} (short : offset < byteLength front)
    (back : Text) : takeBytes offset (front ++ back) = takeBytes offset front := by
  induction front generalizing offset with
  | nil => cases short
  | cons c front ih =>
    rw [byteLength] at short
    rw [cons_append, takeBytes, takeBytes]
    split
    · rw [ih (by omega)]
    · rfl

/-- What is taken stops at the nearest boundary. -/
theorem isNearest_takeBytes (text : Text) (offset : Nat) :
    IsNearest text offset (byteLength (takeBytes offset text)) where
  between := ⟨_, _, (takeBytes_append_dropBytes offset text).symm, rfl⟩
  below := by
    have whole := congrArg byteLength (takeBytes_append_dropBytes offset text)
    have fits := byteLength_takeBytes_le offset text
    rw [byteLength_append] at whole
    omega
  greatest := by
    rintro _ ⟨before, after, rfl, rfl⟩ below
    rw [takeBytes_append_of_le (Nat.le_trans below (Nat.min_le_left _ _)), byteLength_append]
    exact Nat.le_add_right _ _

namespace Position

/-! ## The place behind a text -/

def behind (before : Text) : Position where
  offset := byteLength before
  line := before.count '\n' + 1
  column := (before.reverse.takeWhile (· != '\n')).length + 1

theorem ofOffset_eq_behind (text : Text) (offset : Nat) :
    ofOffset text offset = behind (takeBytes offset text) := rfl

theorem ofOffset_append (before after : Text) :
    ofOffset (before ++ after) (byteLength before) = behind before := by
  rw [ofOffset_eq_behind, (splitBytes_append ..).1]

/-- A line break begins a line, and any other character is one more column. -/
theorem behind_concat (before : Text) (c : Char) :
    behind (before ++ [c]) =
      if c = '\n' then ⟨(behind before).offset + 1, (behind before).line + 1, 1⟩
      else ⟨(behind before).offset + c.utf8Size, (behind before).line,
        (behind before).column + 1⟩ := by
  split
  · next breaks =>
    subst breaks
    simp [behind, byteLength]
    rfl
  · next other => simp [behind, byteLength, other]

/-! ## Order -/

/-- A place stands on an earlier line than another one, or before it on the same line. -/
def Precedes (first second : Position) : Prop :=
  first.line < second.line ∨ first.line = second.line ∧ first.column < second.column

theorem Precedes.trans {first second third : Position} (left : first.Precedes second)
    (right : second.Precedes third) : first.Precedes third := by
  unfold Precedes at *
  omega

theorem Precedes.asymm {first second : Position} (left : first.Precedes second) :
    ¬ second.Precedes first := by
  unfold Precedes at *
  omega

theorem behind_precedes_concat (before : Text) (c : Char) :
    (behind before).Precedes (behind (before ++ [c])) := by
  rw [behind_concat]
  split
  · exact .inl (Nat.lt_succ_self _)
  · exact .inr ⟨rfl, Nat.lt_succ_self _⟩

/-- Whatever follows a text moves the place on. -/
theorem behind_precedes_append (before : Text) {more : Text} (someChar : more ≠ []) :
    (behind before).Precedes (behind (before ++ more)) := by
  induction more generalizing before with
  | nil => exact absurd rfl someChar
  | cons c more ih =>
    have first := behind_precedes_concat before c
    cases more with
    | nil => exact first
    | cons d more =>
      have later := ih (before ++ [c]) (cons_ne_nil d more)
      rw [append_assoc, singleton_append] at later
      exact first.trans later

theorem ofOffset_precedes {first second : Nat} (left : IsBoundary text first)
    (right : IsBoundary text second) (ordered : first < second) :
    (ofOffset text first).Precedes (ofOffset text second) := by
  obtain ⟨before, after, rfl, rfl⟩ := left
  obtain ⟨before', after', whole, rfl⟩ := right
  have place := ofOffset_append before' after'
  rw [← whole] at place
  rw [place, ofOffset_append]
  rcases append_eq_append_iff.1 whole with ⟨more, rfl, -⟩ | ⟨more, rfl, -⟩
  · refine behind_precedes_append before ?_
    rintro rfl
    rw [append_nil] at ordered
    exact Nat.lt_irrefl _ ordered
  · rw [byteLength_append] at ordered
    omega

theorem precedes_iff {first second : Nat} (left : IsBoundary text first)
    (right : IsBoundary text second) :
    (ofOffset text first).Precedes (ofOffset text second) ↔ first < second := by
  refine ⟨fun earlier => ?_, ofOffset_precedes left right⟩
  rcases Nat.lt_trichotomy first second with ordered | rfl | reversed
  · exact ordered
  · exact absurd earlier earlier.asymm
  · exact absurd earlier (ofOffset_precedes right left reversed).asymm

/-- An offset has the place of the nearest boundary. -/
theorem ofOffset_eq_of_isNearest {boundary : Nat} (nearest : IsNearest text offset boundary) :
    ofOffset text offset = ofOffset text boundary ∧ (ofOffset text offset).offset = boundary := by
  have taken := isNearest_takeBytes text offset
  have same : byteLength (takeBytes offset text) = boundary :=
    Nat.le_antisymm (nearest.greatest _ taken.between taken.below)
      (taken.greatest _ nearest.between nearest.below)
  have place := ofOffset_append (takeBytes offset text) (dropBytes offset text)
  rw [takeBytes_append_dropBytes, same] at place
  exact ⟨place.symm, same⟩

end Position

/-! ## The table of lines -/

/-- Spans that are not empty, one behind the other from a first offset to a last one. -/
def Tiled : Nat → List Span → Nat → Prop
  | start, [], stop => start = stop
  | start, span :: spans, stop =>
    span.start = start ∧ span.start < span.stop ∧ Tiled span.stop spans stop

theorem tiled_spansFrom (start : Nat) {pieces : List Text}
    (someChar : ∀ piece ∈ pieces, piece ≠ []) :
    Tiled start (spansFrom start pieces) (start + byteLength pieces.flatten) := by
  induction pieces generalizing start with
  | nil => rfl
  | cons piece pieces ih =>
    obtain ⟨here, later⟩ := forall_mem_cons.1 someChar
    have tiled := ih (start + byteLength piece) later
    rw [Nat.add_assoc, ← byteLength_append] at tiled
    refine ⟨rfl, ?_, tiled⟩
    have size : byteLength piece ≠ 0 := fun noneTaken => here (byteLength_eq_zero noneTaken)
    show start < start + byteLength piece
    omega

/-- A line has a character, and a line break only at its end. -/
theorem line_of_mem_lines (member : line ∈ lines text) : line ≠ [] ∧ '\n' ∉ line.dropLast := by
  induction text generalizing line with
  | nil => cases member
  | cons c rest ih =>
    rw [lines] at member
    split at member
    · rcases mem_cons.1 member with rfl | later
      · simp
      · exact ih later
    · next other =>
      cases below : lines rest with
      | nil =>
        rw [below] at member
        obtain rfl := mem_singleton.1 member
        simp
      | cons first others =>
        rw [below] at member ih
        rcases mem_cons.1 member with rfl | later
        · obtain ⟨someChar, clean⟩ := ih mem_cons_self
          rw [dropLast_cons_of_ne_nil someChar]
          simpa [Ne.symm other] using clean
        · exact ih (mem_cons_of_mem _ later)

theorem tiled_lineSpans (text : Text) : Tiled 0 (lineSpans text) (byteLength text) := by
  have tiled := tiled_spansFrom 0 fun line (member : line ∈ lines text) =>
    (line_of_mem_lines member).1
  rwa [flatten_lines, Nat.zero_add] at tiled

/-- All lines above another one have their line break. -/
theorem count_above {above below : List Text} (split : lines text = above ++ line :: below) :
    above.flatten.count '\n' = above.length := by
  have broken : ∀ other ∈ above, other.count '\n' = 1 := by
    intro other member
    have early : other ∈ (lines text).dropLast := by
      rw [split, dropLast_append_of_ne_nil (cons_ne_nil _ _)]
      exact mem_append_left _ member
    obtain ⟨body, rfl⟩ := exists_of_mem_dropLast_lines early
    have clean := (line_of_mem_lines (dropLast_subset _ early)).2
    rw [dropLast_concat] at clean
    rw [count_append, count_eq_zero_of_not_mem clean, count_singleton_self]
  clear split
  induction above with
  | nil => rfl
  | cons first above ih =>
    obtain ⟨here, later⟩ := forall_mem_cons.1 broken
    rw [flatten_cons, count_append, here, ih later, length_cons, Nat.add_comm]

/-- What fits before the end of a line holds no line break. -/
theorem not_mem_takeBytes (clean : '\n' ∉ line.dropLast) (inside : offset < byteLength line) :
    '\n' ∉ takeBytes offset line := by
  have fits := byteLength_takeBytes_le offset line
  have front : takeBytes offset line <+: line := ⟨_, takeBytes_append_dropBytes offset line⟩
  rcases eq_nil_or_concat line with rfl | ⟨body, last, rfl⟩
  · cases inside
  · rw [concat_eq_append] at *
    rw [dropLast_concat] at clean
    rcases prefix_concat_iff.1 front with whole | inner
    · rw [whole] at fits
      omega
    · exact fun member => clean (inner.subset member)

/-- The table of lines finds the line that the place of an offset is on. -/
theorem lineIndex_lineSpans (inside : offset < byteLength text) :
    lineIndex (lineSpans text) offset = some ((ofOffset text offset).line - 1) := by
  have someChar : text ≠ [] := by
    rintro rfl
    cases inside
  obtain ⟨above, line, below, here⟩ := exists_isLineAt someChar offset
  have whole : text = above.flatten ++ (line ++ below.flatten) := by
    rw [← flatten_lines text, here.split, flatten_append, flatten_cons]
  have stops : offset - byteLength above.flatten < byteLength line := by
    have starts := here.starts
    rcases here.stops with before | rfl
    · rw [flatten_append, flatten_singleton, byteLength_append] at before
      omega
    · rw [whole, flatten_nil, append_nil, byteLength_append] at inside
      omega
  have listed : line ∈ lines text := by simp [here.split]
  have clean := (line_of_mem_lines listed).2
  have taken : takeBytes (offset - byteLength above.flatten) (line ++ below.flatten) =
      takeBytes (offset - byteLength above.flatten) line := takeBytes_append_of_lt stops _
  rw [here.lineIndex_eq, ofOffset_eq_behind, behind, whole,
    takeBytes_append_of_le here.starts, taken, count_append, count_above here.split,
    count_eq_zero_of_not_mem (not_mem_takeBytes clean stops), Nat.add_zero,
    Nat.add_sub_cancel]

/-- The places of a text. Offsets between characters come in the order of their lines and columns;
every offset has the place of the nearest boundary at or below it, the end counting for all that
lies behind it; and the line of an offset inside the text is the one that the table of lines finds,
whose spans are not empty and lie side by side from the front of the text to its end. -/
theorem positions_ordered (text : Text) :
    (∀ first second, IsBoundary text first → IsBoundary text second →
      (first < second ↔
        (ofOffset text first).Precedes (ofOffset text second))) ∧
    (∀ offset, ∃ boundary, IsNearest text offset boundary ∧
      ofOffset text offset = ofOffset text boundary ∧
      (ofOffset text offset).offset = boundary) ∧
    (∀ offset, offset < byteLength text →
      lineIndex (lineSpans text) offset = some ((ofOffset text offset).line - 1)) ∧
    Tiled 0 (lineSpans text) (byteLength text) := by
  refine ⟨?_, ?_, fun offset => lineIndex_lineSpans, tiled_lineSpans text⟩
  · intro first second left right
    exact (precedes_iff left right).symm
  · intro offset
    have nearest := isNearest_takeBytes text offset
    exact ⟨_, nearest, ofOffset_eq_of_isNearest nearest⟩

/-- A text with an empty line, characters of two bytes and no line break at its end. -/
def accentedLines : Text := "é\n\nxé".toList

theorem accentedLines_ordered : IsBoundary accentedLines 2 ∧ IsBoundary accentedLines 5 ∧
    (ofOffset accentedLines 2).Precedes (ofOffset accentedLines 5) ∧
    lineIndex (lineSpans accentedLines) 6 =
      some ((ofOffset accentedLines 6).line - 1) ∧
    ofOffset accentedLines 6 = ⟨5, 3, 2⟩ := by
  have first : IsBoundary accentedLines 2 := ⟨['é'], "\n\nxé".toList, by decide, by decide⟩
  have second : IsBoundary accentedLines 5 := ⟨"é\n\nx".toList, ['é'], by decide, by decide⟩
  obtain ⟨ordered, -, indexed, -⟩ := positions_ordered accentedLines
  exact ⟨first, second, (ordered 2 5 first second).1 (by decide), indexed 6 (by decide), by decide⟩

end Reflow.Text
