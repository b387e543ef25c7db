import Mathlib.Data.Nat.Find
import Reflow.Document.Scope
import Reflow.Proofs.LineSpans

/-!
# The comment around an offset

Block comments are found by one scan from left to right: a comment opens with the next opening mark,
closes with the first closing mark behind it, and the scan goes on behind the comment (`comments`).
The search for the comment around an offset starts from the offset instead, and takes the last
opening mark at or before it. Inside a comment of the scan that mark is the comment's own, or one
that stands in the text of the comment. `blockScope?_of_comment` says what is found in each case.
-/

namespace Reflow

open Text List

variable {c second : Char} {before document rest : Text} {closing offset : Nat}
  {comment : Span}

/-! ## Marks -/

/-- Two characters stand next to each other at an offset. -/
def MarkAt (first second : Char) (document : Text) (offset : Nat) : Prop :=
  ∃ before after, document = before ++ first :: second :: after ∧ byteLength before = offset

variable {first : Char} {opening : Nat}

/-- The second character of a mark is the character that stands behind the first. -/
theorem MarkAt.second_eq {after : Text} (mark : MarkAt first second document offset)
    (split : document = before ++ c :: after)
    (place : byteLength before = offset + first.utf8Size) : second = c := by
  obtain ⟨front, back, rfl, rfl⟩ := mark
  have whole : (front ++ [first]) ++ second :: back = before ++ c :: after := by simpa using split
  have size : byteLength (front ++ [first]) = byteLength before := by simp [place, byteLength]
  exact (List.cons.inj (eq_of_byteLength_eq whole size).2).1

theorem MarkAt.lt_byteLength (mark : MarkAt first second document offset) :
    offset + first.utf8Size < byteLength document := by
  obtain ⟨before, after, rfl, rfl⟩ := mark
  have positive := second.utf8Size_pos
  simp only [byteLength_append, byteLength]
  omega

/-- A mark that does not stand before a character stands at it or behind it. -/
theorem MarkAt.eq_or_behind (mark : MarkAt first second (before ++ c :: rest) offset)
    (above : byteLength before ≤ offset) :
    (c = first ∧ rest.head? = some second) ∨ byteLength before + c.utf8Size ≤ offset := by
  obtain ⟨front, back, split, rfl⟩ := mark
  rcases append_eq_append_iff.1 split with ⟨between, rfl, same⟩ | ⟨between, rfl, same⟩
  · cases between with
    | nil =>
      obtain ⟨rfl, rfl⟩ := List.cons.inj same
      exact .inl ⟨rfl, rfl⟩
    | cons d between =>
      obtain ⟨rfl, rfl⟩ := List.cons.inj same
      right
      simp only [byteLength_append, byteLength]
      omega
  · rw [byteLength_append] at above
    obtain rfl : between = [] := byteLength_eq_zero (by omega)
    obtain ⟨rfl, rfl⟩ := List.cons.inj same
    exact .inl ⟨rfl, rfl⟩

theorem mem_pairOffsets_cons {start : Nat} :
    offset ∈ pairOffsets first second start (c :: rest) ↔
      (c = first ∧ rest.head? = some second ∧ start = offset) ∨
        offset ∈ pairOffsets first second (start + c.utf8Size) rest := by
  cases rest with
  | nil => simp [pairOffsets]
  | cons next rest =>
    rw [pairOffsets]
    by_cases here : c = first ∧ next = second
    · simp [here, @eq_comm _ offset start]
    · rw [if_neg (by simpa using here)]
      refine ⟨.inr, fun found => found.resolve_left ?_⟩
      rintro ⟨same, nextSame, place⟩
      exact here ⟨same, Option.some.inj nextSame⟩

theorem mem_pairOffsets {start : Nat} {text : Text} :
    offset ∈ pairOffsets first second start text ↔
      ∃ before after, text = before ++ first :: second :: after ∧
        start + byteLength before = offset := by
  induction text generalizing start with
  | nil => simp [pairOffsets]
  | cons c rest ih =>
    rw [mem_pairOffsets_cons, ih]
    constructor
    · rintro (⟨rfl, next, rfl⟩ | ⟨before, after, rfl, rfl⟩)
      · obtain ⟨after, rfl⟩ := List.head?_eq_some_iff.1 next
        exact ⟨[], after, rfl, rfl⟩
      · exact ⟨c :: before, after, rfl, by simp [byteLength, Nat.add_assoc]⟩
    · rintro ⟨before, after, split, rfl⟩
      cases before with
      | nil =>
        obtain ⟨rfl, rfl⟩ := List.cons.inj split
        exact .inl ⟨rfl, rfl, rfl⟩
      | cons d before =>
        obtain ⟨rfl, rfl⟩ := List.cons.inj split
        exact .inr ⟨before, after, rfl, by simp [byteLength, Nat.add_assoc]⟩

/-- The offsets where two characters stand are all listed. -/
theorem mem_pairOffsets_zero :
    offset ∈ pairOffsets first second 0 document ↔ MarkAt first second document offset := by
  simp only [mem_pairOffsets, Nat.zero_add, MarkAt]

theorem pairwise_pairOffsets (first second : Char) (start : Nat) (text : Text) :
    (pairOffsets first second start text).Pairwise (· < ·) := by
  fun_induction pairOffsets first second start text with
  | case1 start a b rest later found ih =>
    refine pairwise_cons.2 ⟨?_, ih⟩
    intro offset member
    obtain ⟨before, after, split, rfl⟩ := mem_pairOffsets.1 member
    have positive := a.utf8Size_pos
    omega
  | case2 start a b rest later absent ih => exact ih
  | case3 => exact .nil

/-- The last opening mark at or before an offset. -/
structure LastOpening (document : Text) (offset opening : Nat) : Prop where
  mark : MarkAt '/' '*' document opening
  before : opening ≤ offset
  greatest : ∀ other, MarkAt '/' '*' document other → other ≤ offset → other ≤ opening

/-- The first closing mark behind an opening mark. -/
structure FirstClosing (document : Text) (opening closing : Nat) : Prop where
  mark : MarkAt '*' '/' document closing
  behind : opening + 2 ≤ closing
  least : ∀ other, MarkAt '*' '/' document other → opening + 2 ≤ other → closing ≤ other

/-! ## Comments -/

/-- The comments from an offset on, given the offset where one was opened before. -/
def commentsFrom : Option Nat → Nat → Text → List Span
  | none, start, '/' :: '*' :: rest => commentsFrom (some start) (start + 2) rest
  | some opening, start, '*' :: '/' :: rest =>
    ⟨opening, start + 2⟩ :: commentsFrom none (start + 2) rest
  | opened, start, c :: rest => commentsFrom opened (start + c.utf8Size) rest
  | _, _, [] => []

def comments (document : Text) : List Span := commentsFrom none 0 document

/-- A comment of the scan: it is opened by a mark and ends behind the first closing mark. -/
structure IsComment (document : Text) (comment : Span) : Prop where
  opens : MarkAt '/' '*' document comment.start
  closes : ∃ closing, FirstClosing document comment.start closing ∧ comment.stop = closing + 2

/-- What the scan knows of the comment that it is in: the comment was opened, and no closing mark
stands between there and here. -/
def Underway (document : Text) (start : Nat) : Option Nat → Prop
  | none => True
  | some opening =>
    MarkAt '/' '*' document opening ∧ opening + 2 ≤ start ∧
      ∀ closing, MarkAt '*' '/' document closing → opening + 2 ≤ closing → start ≤ closing

/-- A comment that is not closed by a character goes on behind it. -/
theorem Underway.pass {opened : Option Nat}
    (underway : Underway (before ++ c :: rest) (byteLength before) opened)
    (goesOn : ∀ opening after, opened = some opening → c = '*' → rest = '/' :: after → False) :
    Underway (before ++ c :: rest) (byteLength before + c.utf8Size) opened := by
  cases opened with
  | none => trivial
  | some opening =>
    obtain ⟨opens, behind, least⟩ := underway
    refine ⟨opens, by omega, ?_⟩
    intro closing mark later
    rcases mark.eq_or_behind (least closing mark later) with ⟨star, next⟩ | passed
    · obtain ⟨after, slash⟩ := List.head?_eq_some_iff.1 next
      exact (goesOn opening after rfl star slash).elim
    · exact passed

/-- Everything that the scan lists is a comment. -/
theorem isComment_of_mem_commentsFrom {text : Text} {opened : Option Nat}
    (split : document = before ++ text) (underway : Underway document (byteLength before) opened)
    (member : comment ∈ commentsFrom opened (byteLength before) text) :
    IsComment document comment := by
  generalize place : byteLength before = start at member underway
  fun_induction commentsFrom opened start text generalizing before with
  | case1 start rest ih =>
    have opens : MarkAt '/' '*' document start := ⟨before, rest, split, place⟩
    have place' : byteLength (before ++ ['/', '*']) = start + 2 := by
      rw [byteLength_append, place]
      rfl
    refine ih (by simpa using split) place' member ⟨opens, Nat.le_refl _, ?_⟩
    exact fun closing mark behind => behind
  | case2 opening start rest ih =>
    obtain ⟨opens, behind, least⟩ := underway
    rcases mem_cons.1 member with rfl | member
    · exact ⟨opens, start, ⟨⟨before, rest, split, place⟩, behind, least⟩, rfl⟩
    · have place' : byteLength (before ++ ['*', '/']) = start + 2 := by
        rw [byteLength_append, place]
        rfl
      exact ih (by simpa using split) place' member trivial
  | case3 opened start c rest notOpened notClosed ih =>
    have place' : byteLength (before ++ [c]) = start + c.utf8Size := by simp [byteLength, place]
    subst split place
    exact ih (by simp) place' member (underway.pass notClosed)
  | case4 => cases member

theorem isComment_of_mem (found : comment ∈ comments document) : IsComment document comment :=
  @isComment_of_mem_commentsFrom [] document comment document none rfl trivial found

/-! ## Searching from an offset -/

theorem exists_lastOpening {start : Nat} (mark : MarkAt '/' '*' document start)
    (before : start ≤ offset) :
    ∃ opening, LastOpening document offset opening ∧ start ≤ opening := by
  classical
  refine ⟨Nat.findGreatest (MarkAt '/' '*' document) offset, ⟨?_, ?_, ?_⟩, ?_⟩
  · exact Nat.findGreatest_spec before mark
  · exact Nat.findGreatest_le offset
  · exact fun other mark before => Nat.le_findGreatest before mark
  · exact Nat.le_findGreatest before mark

theorem exists_firstClosing (mark : MarkAt '*' '/' document closing)
    (behind : opening + 2 ≤ closing) : ∃ first, FirstClosing document opening first := by
  classical
  have someMark : ∃ closing, MarkAt '*' '/' document closing ∧ opening + 2 ≤ closing :=
    ⟨closing, mark, behind⟩
  obtain ⟨mark, behind⟩ := Nat.find_spec someMark
  exact ⟨Nat.find someMark, mark, behind, fun other mark behind => Nat.find_min' _ ⟨mark, behind⟩⟩

theorem LastOpening.getLast?_eq (last : LastOpening document offset opening) :
    ((pairOffsets '/' '*' 0 document).filter (· ≤ offset)).getLast? = some opening := by
  have member : opening ∈ (pairOffsets '/' '*' 0 document).filter (· ≤ offset) :=
    mem_filter.2 ⟨mem_pairOffsets_zero.2 last.mark, by simpa using last.before⟩
  have sorted := (pairwise_pairOffsets '/' '*' 0 document).filter (· ≤ offset)
  obtain ⟨before, after, split⟩ := append_of_mem member
  cases after with
  | nil => rw [split, List.getLast?_concat]
  | cons next after =>
    -- A mark behind the last one would be greater.
    rw [split] at sorted
    have greater : opening < next :=
      (pairwise_cons.1 (pairwise_append.1 sorted).2.1).1 next mem_cons_self
    have listed : next ∈ (pairOffsets '/' '*' 0 document).filter (· ≤ offset) := by simp [split]
    obtain ⟨mark, inside⟩ := mem_filter.1 listed
    have := last.greatest next (mem_pairOffsets_zero.1 mark) (by simpa using inside)
    omega

theorem FirstClosing.find?_eq (first : FirstClosing document opening closing) :
    (pairOffsets '*' '/' 0 document).find? (opening + 2 ≤ ·) = some closing := by
  have sorted := pairwise_pairOffsets '*' '/' 0 document
  obtain ⟨before, after, split⟩ := append_of_mem (mem_pairOffsets_zero.2 first.mark)
  refine List.find?_eq_some_iff_append.2 ⟨by simpa using first.behind, before, after, split, ?_⟩
  intro other earlier
  rw [split] at sorted
  have less : other < closing := (pairwise_append.1 sorted).2.2 other earlier closing
    mem_cons_self
  have mark : MarkAt '*' '/' document other := by
    rw [← mem_pairOffsets_zero, split]
    exact mem_append_left _ earlier
  have := first.least other mark
  simp only [Bool.not_eq_true', decide_eq_false_iff_not]
  omega

/-- A span of whole lines, from the line that holds an offset to the line that holds another. -/
def IsLines (document : Text) (first last : Nat) (span : Span) : Prop :=
  ∃ head ∈ lineSpans document, ∃ tail ∈ lineSpans document,
    head.contains first ∧ tail.contains last ∧ span = ⟨head.start, tail.stop⟩

theorem lineStart_eq {line : Span} (member : line ∈ lineSpans document)
    (inside : line.contains offset) : lineStart document offset = line.start := by
  rw [lineStart, find?_lineSpan member inside]

/-- The line of a closing mark stops where the search from behind the mark says, since the mark
holds no line break. -/
theorem lineStop_eq {line : Span} (mark : MarkAt '*' '/' document closing)
    (member : line ∈ lineSpans document) (inside : line.contains (closing + 1)) :
    lineStop document (closing + 2) = line.stop := by
  obtain ⟨starts, stops⟩ := Span.contains_iff.1 inside
  by_cases further : closing + 2 < line.stop
  · have inside' : line.contains (closing + 2) := Span.contains_iff.2 ⟨by omega, further⟩
    rw [lineStop, find?_lineSpan member inside']
  · rcases stop_lineSpan member with whole | ⟨before, after, split, stop⟩
    · have beyond : (lineSpans document).find? (·.contains (closing + 2)) = none := by
        refine List.find?_eq_none.2 fun other found => ?_
        have := stop_le_byteLength found
        rw [Span.contains_iff]
        omega
      rw [lineStop, beyond, whole]
    · have place : byteLength before = closing + 1 := by omega
      exact absurd (mark.second_eq split place) (by decide)

theorem isLines_of_marks (opens : MarkAt '/' '*' document opening)
    (closes : MarkAt '*' '/' document closing) :
    IsLines document opening (closing + 1)
      ⟨lineStart document opening, lineStop document (closing + 2)⟩ := by
  obtain ⟨head, headLine, first⟩ := exists_lineSpan (Nat.lt_of_le_of_lt (Nat.le_add_right _ _)
    opens.lt_byteLength)
  obtain ⟨tail, tailLine, last⟩ := exists_lineSpan closes.lt_byteLength
  refine ⟨head, headLine, tail, tailLine, first, last, ?_⟩
  rw [lineStart_eq headLine first, lineStop_eq closes tailLine last]

/-- The lines from the last opening mark to the first closing mark behind it. -/
theorem blockScope?_of_marks (within : offset ≤ byteLength document)
    (last : LastOpening document offset opening) (first : FirstClosing document opening closing)
    (reaches : offset ≤ closing + 2) :
    ∃ span, IsLines document opening (closing + 1) span ∧
      blockScope? document offset = some span := by
  refine ⟨_, isLines_of_marks last.mark first.mark, ?_⟩
  simp [blockScope?, Nat.min_eq_left within, last.getLast?_eq, first.find?_eq, reaches]

theorem blockScope?_of_unclosed (within : offset ≤ byteLength document)
    (last : LastOpening document offset opening)
    (unclosed : ∀ closing, ¬ FirstClosing document opening closing) :
    blockScope? document offset = none := by
  have missing : (pairOffsets '*' '/' 0 document).find? (opening + 2 ≤ ·) = none := by
    refine List.find?_eq_none.2 fun closing listed => ?_
    simp only [decide_eq_true_eq]
    intro behind
    obtain ⟨first, found⟩ := exists_firstClosing (mem_pairOffsets_zero.1 listed) behind
    exact unclosed first found
  simp [blockScope?, Nat.min_eq_left within, last.getLast?_eq, missing]

/-- A closing mark behind an opening mark that overlaps the end of a comment stands behind the
comment. -/
theorem FirstClosing.stop_le (isComment : IsComment document comment)
    (overlaps : comment.stop < opening + 4) (first : FirstClosing document opening closing) :
    comment.stop ≤ closing := by
  obtain ⟨own, closes, stop⟩ := isComment.closes
  have behind := first.behind
  by_contra early
  -- The only place left is the second character of the comment's own closing mark.
  obtain rfl : closing = own + 1 := by omega
  obtain ⟨before, after, split, place⟩ := first.mark
  exact absurd (closes.mark.second_eq split place) (by decide)

/-- What is found from an offset inside a comment, given the last opening mark at or before the
offset. If that mark stands clear of the comment's closing mark, as the comment's own opening mark
does, the scope goes from the line of that mark to the line where the comment ends. Otherwise the
comment's closing mark is passed over, and the scope goes to the next one that is left, if any. -/
theorem blockScope?_of_comment {document : Text} {comment : Span} {offset : Nat}
    (found : comment ∈ comments document) (inside : comment.contains offset) :
    comment.start + 4 ≤ comment.stop ∧
    ∃ opening, LastOpening document offset opening ∧ comment.start ≤ opening ∧
      (opening + 4 ≤ comment.stop →
        ∃ span, IsLines document opening (comment.stop - 1) span ∧
          blockScope? document offset = some span) ∧
      (comment.stop < opening + 4 →
        (∃ closing span, FirstClosing document opening closing ∧ comment.stop ≤ closing ∧
          IsLines document opening (closing + 1) span ∧ blockScope? document offset = some span) ∨
        ((∀ closing, ¬ FirstClosing document opening closing) ∧
          blockScope? document offset = none)) := by
  have isComment := isComment_of_mem found
  obtain ⟨own, closes, stop⟩ := isComment.closes
  obtain ⟨above, below⟩ := Span.contains_iff.1 inside
  have long := closes.behind
  have within : offset ≤ byteLength document := by
    have : own + 1 < byteLength document := closes.mark.lt_byteLength
    omega
  obtain ⟨opening, last, later⟩ := exists_lastOpening isComment.opens above
  refine ⟨by omega, opening, last, later, ?_, ?_⟩
  · intro clear
    have first : FirstClosing document opening own :=
      ⟨closes.mark, by omega, fun other mark behind => closes.least other mark (by omega)⟩
    rw [stop]
    exact blockScope?_of_marks within last first (by omega)
  · intro overlaps
    by_cases closed : ∃ closing, FirstClosing document opening closing
    · left
      obtain ⟨closing, first⟩ := closed
      have next := first.stop_le isComment overlaps
      obtain ⟨span, lines, scope⟩ := blockScope?_of_marks within last first (by omega)
      exact ⟨closing, span, first, next, lines, scope⟩
    · right
      have unclosed := not_exists.1 closed
      exact ⟨unclosed, blockScope?_of_unclosed within last unclosed⟩

/-- A comment over two lines behind a character of two bytes, with another comment behind it. -/
def adjacentComments : Text := "é /* a\n b */ /* c */\n".toList

theorem blockScope?_adjacentComments :
    (⟨3, 13⟩ : Span) ∈ comments adjacentComments ∧ (⟨3, 13⟩ : Span).contains 9 ∧
    ∃ opening, LastOpening adjacentComments 9 opening ∧ opening + 4 ≤ 13 ∧
      ∃ span, IsLines adjacentComments opening 12 span ∧
        blockScope? adjacentComments 9 = some span := by
  have found : (⟨3, 13⟩ : Span) ∈ comments adjacentComments := by decide
  have inside : (⟨3, 13⟩ : Span).contains 9 := rfl
  obtain ⟨-, opening, last, later, clear, -⟩ := blockScope?_of_comment found inside
  have near : opening + 4 ≤ 13 := by
    have := last.before
    omega
  exact ⟨found, inside, opening, last, near, clear near⟩

/-- A comment that names files by a pattern, which holds an opening mark. -/
def globComment : Text := "/* see\n   src/*.rs */\n".toList

/-- The scope of an offset inside a comment need not hold the line where the comment begins. -/
theorem globComment_scope :
    ¬ ∀ (document : Text) (comment : Span) (offset : Nat), comment ∈ comments document →
      comment.contains offset → ∃ span,
        IsLines document comment.start (comment.stop - 1) span ∧
          blockScope? document offset = some span := by
  intro claim
  obtain ⟨span, ⟨head, headLine, tail, tailLine, first, last, rfl⟩, scope⟩ :=
    claim globComment ⟨0, 21⟩ 18 (by decide) rfl
  have narrow : blockScope? globComment 18 = some ⟨7, 22⟩ := by decide
  rw [narrow] at scope
  have starts : head.start = 7 := by
    injection scope with same
    exact (congrArg Span.start same).symm
  have whole : head.start ≤ 0 := (Span.contains_iff.1 first).1
  omega

end Reflow
