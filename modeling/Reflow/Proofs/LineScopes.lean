import Reflow.Document.Scope
import Reflow.Proofs.LineSpans

/-!
# Scopes that are runs of lines

The line comments and the prose around an offset are found by one search with two tests. The lines
of a document are cut in three, so that the middle part satisfies the test and neither neighbour of
it does (`IsMaximalRun`). From any offset of the middle part the search gives its span
(`lineRun?_of_run`), and it gives nothing only where the line of the offset fails the test
(`lineRun?_eq_none_iff`).
-/

namespace Reflow

open Text List

/-! ## The line of an offset -/

/-- A line of a document, with the lines above and below it, is the line of an offset: it holds the
offset, or it is the last one and the offset lies behind it. -/
structure IsLineAt (document : Text) (offset : Nat) (above : List Text)
    (line : Text) (below : List Text) : Prop where
  split : lines document = above ++ line :: below
  starts : byteLength above.flatten ≤ offset
  stops : offset < byteLength (above ++ [line]).flatten ∨ below = []

namespace Text

theorem spansFrom_append (start : Nat) (first second : List Text) :
    spansFrom start (first ++ second) =
      spansFrom start first ++ spansFrom (start + byteLength first.flatten) second := by
  induction first generalizing start with
  | nil => simp [spansFrom]
  | cons piece first ih =>
    rw [cons_append, spansFrom, spansFrom, ih, flatten_cons, byteLength_append,
      Nat.add_assoc, cons_append]

theorem length_spansFrom (start : Nat) (pieces : List Text) :
    (spansFrom start pieces).length = pieces.length := by
  induction pieces generalizing start with
  | nil => rfl
  | cons piece pieces ih => rw [spansFrom, length_cons, length_cons, ih]

variable {document line : Text} {above below : List Text} {offset : Nat}

theorem lineSpans_of_split (split : lines document = above ++ line :: below) :
    lineSpans document = spansFrom 0 above ++
      ⟨byteLength above.flatten, byteLength (above ++ [line]).flatten⟩ ::
        spansFrom (byteLength (above ++ [line]).flatten) below := by
  rw [lineSpans, split, spansFrom_append, spansFrom, Nat.zero_add]
  simp

theorem getElem?_lineSpans (split : lines document = above ++ line :: below) :
    (lineSpans document)[above.length]? =
      some ⟨byteLength above.flatten, byteLength (above ++ [line]).flatten⟩ := by
  rw [lineSpans_of_split split, ← length_spansFrom 0 above,
    List.getElem?_append_right (Nat.le_refl _), Nat.sub_self, List.getElem?_cons_zero]

/-- The spans of pieces that end before an offset do not hold it. -/
theorem findIdx?_spansFrom {start : Nat} {pieces : List Text}
    (ended : start + byteLength pieces.flatten ≤ offset) :
    (spansFrom start pieces).findIdx? (·.contains offset) = none := by
  rw [List.findIdx?_eq_none_iff]
  intro span member
  obtain ⟨before, piece, after, rfl, starts, stops⟩ := split_of_mem_spansFrom member
  rw [flatten_append, flatten_cons, byteLength_append, byteLength_append] at ended
  rw [Bool.eq_false_iff, ne_eq, Span.contains_iff]
  omega

end Text

namespace IsLineAt

variable {document line : Text} {above below : List Text} {offset : Nat}

/-- The search for the line of an offset finds it. -/
theorem lineIndex_eq (here : IsLineAt document offset above line below) :
    lineIndex (lineSpans document) offset = some above.length := by
  have earlier : (spansFrom 0 above).findIdx? (·.contains offset) = none :=
    findIdx?_spansFrom (by rw [Nat.zero_add]; exact here.starts)
  rw [lineIndex, lineSpans_of_split here.split, List.findIdx?_append, earlier, Option.none_or,
    List.findIdx?_cons, length_spansFrom]
  by_cases inside : offset < byteLength (above ++ [line]).flatten
  · rw [if_pos (Span.contains_iff.2 ⟨here.starts, inside⟩)]
    simp
  · obtain rfl : below = [] := here.stops.resolve_left inside
    rw [if_neg fun held => inside (Span.contains_iff.1 held).2]
    have last : byteLength (above ++ [line]).flatten ≤ offset := Nat.le_of_not_lt inside
    simp only [spansFrom, List.findIdx?_nil, Option.map_none, List.getLast?_concat,
      length_append, length_singleton, length_spansFrom, Nat.add_sub_cancel, if_pos last]

end IsLineAt

/-- In a document that is not empty, every offset has its line. -/
theorem exists_isLineAt {document : Text} (someChar : document ≠ []) (offset : Nat) :
    ∃ above line below, IsLineAt document offset above line below := by
  have whole := flatten_lines document
  by_cases inside : offset < byteLength document
  · obtain ⟨span, member, holds⟩ := exists_lineSpan inside
    obtain ⟨above, line, below, split, starts, stops⟩ := split_of_mem_spansFrom member
    obtain ⟨reached, before⟩ := Span.contains_iff.1 holds
    refine ⟨above, line, below, split, by omega, .inl ?_⟩
    simp only [flatten_append, flatten_singleton, byteLength_append]
    omega
  · have someLine : lines document ≠ [] := by
      intro noneLeft
      rw [noneLeft, flatten_nil] at whole
      exact someChar whole.symm
    obtain ⟨above, line, split⟩ := (eq_nil_or_concat (lines document)).resolve_left someLine
    rw [concat_eq_append] at split
    refine ⟨above, line, [], split, ?_, .inr rfl⟩
    rw [split, flatten_append, flatten_singleton] at whole
    rw [← whole, byteLength_append] at inside
    omega

/-! ## Maximal runs -/

/-- The lines of a document in three parts: the middle part satisfies a test, and the lines right
above and right below it do not. -/
structure IsMaximalRun (test : Text → Bool) (document : Text)
    (top run bottom : List Text) : Prop where
  split : lines document = top ++ run ++ bottom
  accepted : ∀ line ∈ run, test line
  before : ∀ line ∈ top.getLast?, test line = false
  behind : ∀ line ∈ bottom.head?, test line = false

def runSpan (top run : List Text) : Span :=
  ⟨byteLength top.flatten, byteLength (top ++ run).flatten⟩

section

variable {test : Text → Bool} {document line : Text} {offset : Nat}
  {above below top before after bottom : List Text}

/-- The search goes up and down from the line of the offset, as long as lines satisfy the test. -/
theorem lineRun?_eq (here : IsLineAt document offset above line below) :
    lineRun? test document offset =
      if test line then do
        let first ← (lineSpans document)[above.length - (above.reverse.takeWhile test).length]?
        let last ← (lineSpans document)[above.length + (below.takeWhile test).length]?
        return ⟨first.start, last.stop⟩
      else none := by
  have own : ((lines document).map test)[above.length]? = some (test line) := by
    simp [here.split]
  have upper : (((lines document).map test).take above.length).reverse.takeWhile id =
      (above.reverse.takeWhile test).map test := by
    rw [← map_take, here.split, take_left, ← map_reverse, takeWhile_map]
    rfl
  have lower : (((lines document).map test).drop (above.length + 1)).takeWhile id =
      (below.takeWhile test).map test := by
    have rest : (above ++ line :: below).drop (above.length + 1) = below := by
      rw [drop_append, drop_eq_nil_of_le (Nat.le_succ _), Nat.add_sub_cancel_left]
      rfl
    rw [← map_drop, here.split, rest, takeWhile_map]
    rfl
  rw [lineRun?, here.lineIndex_eq, Option.bind_eq_bind, Option.bind_some]
  dsimp only
  rw [own, upper, lower, length_map, length_map]
  cases test line <;> rfl

/-- From a line of a maximal run the search gives the span of the run. -/
theorem lineRun?_of_run (run : IsMaximalRun test document top (before ++ line :: after) bottom)
    (here : IsLineAt document offset (top ++ before) line (after ++ bottom)) :
    lineRun? test document offset = some (runSpan top (before ++ line :: after)) := by
  have own : test line := run.accepted line (by simp)
  have upper : (top ++ before).reverse.takeWhile test = before.reverse := by
    rw [reverse_append]
    refine (takeWhile_stop (fun line member => ?_) fun line last => ?_).1
    · exact run.accepted line (by simpa using .inl (mem_reverse.1 member))
    · exact run.before line (by rwa [List.head?_reverse] at last)
  have lower : (after ++ bottom).takeWhile test = after :=
    (takeWhile_stop (fun line member => run.accepted line (by simp [member])) run.behind).1
  -- The run begins with its first line and ends with its last.
  obtain ⟨first, others, head⟩ := exists_cons_of_ne_nil
    (show before ++ line :: after ≠ [] by simp)
  obtain ⟨others', last, tail⟩ := (eq_nil_or_concat (before ++ line :: after)).resolve_left
    (by simp)
  rw [concat_eq_append] at tail
  have fromFirst : lines document = top ++ first :: (others ++ bottom) := by
    rw [run.split, head, append_assoc, cons_append]
  have toLast : lines document = (top ++ others') ++ last :: bottom := by
    rw [run.split, tail]
    simp
  have ends := getElem?_lineSpans toLast
  have size : (top ++ others').length = (top ++ before).length + after.length := by
    have sizes := congrArg List.length tail
    simp only [length_append, length_cons, length_nil] at sizes ⊢
    omega
  have start : (top ++ before).length - before.length = top.length := by
    rw [length_append, Nat.add_sub_cancel]
  rw [size] at ends
  rw [lineRun?_eq here, own, upper, lower, length_reverse, start,
    getElem?_lineSpans fromFirst, ends]
  simp [runSpan, tail]

/-- Every line that satisfies the test stands in a maximal run. -/
theorem exists_isMaximalRun (split : lines document = above ++ line :: below)
    (accepted : test line) :
    ∃ top before after bottom, above = top ++ before ∧ below = after ++ bottom ∧
      IsMaximalRun test document top (before ++ line :: after) bottom := by
  have upper : above = (above.reverse.dropWhile test).reverse ++
      (above.reverse.takeWhile test).reverse := by
    rw [← reverse_append, takeWhile_append_dropWhile, reverse_reverse]
  have lower : below = below.takeWhile test ++ below.dropWhile test :=
    takeWhile_append_dropWhile.symm
  refine ⟨_, _, _, _, upper, lower, ?_, ?_, ?_, ?_⟩
  · rw [split, upper, lower]
    simp
  · intro other member
    rcases mem_append.1 member with early | later
    · exact all_eq_true.1 all_takeWhile other (mem_reverse.1 early)
    · rcases mem_cons.1 later with rfl | late
      · exact accepted
      · exact all_eq_true.1 all_takeWhile other late
  · intro other last
    rw [List.getLast?_reverse] at last
    have refused := List.head?_dropWhile_not test above.reverse
    rw [last] at refused
    exact refused
  · intro other first
    have refused := List.head?_dropWhile_not test below
    rw [first] at refused
    exact refused

/-- An offset of a run has its line in the run. -/
theorem exists_isLineAt_of_run {run : List Text} (split : lines document = top ++ run ++ bottom)
    (inside : (runSpan top run).contains offset) :
    ∃ before line after, run = before ++ line :: after ∧
      IsLineAt document offset (top ++ before) line (after ++ bottom) := by
  obtain ⟨starts, stops⟩ := Span.contains_iff.1 inside
  simp only [runSpan, flatten_append, byteLength_append] at starts stops
  obtain ⟨span, member, holds⟩ := exists_spansFrom starts stops
  obtain ⟨before, line, after, rfl, begins, ends⟩ := split_of_mem_spansFrom member
  obtain ⟨reached, left⟩ := Span.contains_iff.1 holds
  refine ⟨before, line, after, rfl, by rw [split]; simp, ?_, .inl ?_⟩
  all_goals
    simp only [flatten_append, flatten_singleton, byteLength_append]
    omega

/-- What the search gives is the span of a maximal run that holds the line of the offset. -/
theorem exists_run_of_lineRun? {span : Span} (found : lineRun? test document offset = some span) :
    ∃ top before line after bottom,
      IsMaximalRun test document top (before ++ line :: after) bottom ∧
        IsLineAt document offset (top ++ before) line (after ++ bottom) ∧
        span = runSpan top (before ++ line :: after) := by
  have someChar : document ≠ [] := by
    rintro rfl
    cases found
  obtain ⟨above, line, below, here⟩ := exists_isLineAt someChar offset
  cases own : test line with
  | false =>
    rw [lineRun?_eq here, own] at found
    cases found
  | true =>
    obtain ⟨top, before, after, bottom, rfl, rfl, run⟩ := exists_isMaximalRun here.split own
    rw [lineRun?_of_run run here] at found
    exact ⟨top, before, line, after, bottom, run, here, (Option.some.inj found).symm⟩

theorem lineRun?_eq_none_iff : lineRun? test document offset = none ↔
    document = [] ∨ ∃ above line below, IsLineAt document offset above line below ∧
      test line = false := by
  constructor
  · intro nothing
    by_cases someChar : document = []
    · exact .inl someChar
    · obtain ⟨above, line, below, here⟩ := exists_isLineAt someChar offset
      refine .inr ⟨above, line, below, here, ?_⟩
      cases own : test line with
      | false => rfl
      | true =>
        obtain ⟨top, before, after, bottom, rfl, rfl, run⟩ := exists_isMaximalRun here.split own
        rw [lineRun?_of_run run here] at nothing
        cases nothing
  · rintro (rfl | ⟨above, line, below, here, rejected⟩)
    · rfl
    · rw [lineRun?_eq here, rejected]
      rfl

end

/-! ## Scopes -/

/-- A search gives the maximal run of lines around an offset: nothing if the document is empty or
the line of the offset fails the test, and otherwise the span of the maximal run that holds this
line, which is the same from every offset of the run. -/
structure FindsRuns (test : Text → Bool) (scope? : Text → Nat → Option Span) : Prop where
  noneIff : ∀ document offset, scope? document offset = none ↔
    document = [] ∨ ∃ above line below, IsLineAt document offset above line below ∧
      test line = false
  run : ∀ document offset span, scope? document offset = some span →
    ∃ top before line after bottom,
      IsMaximalRun test document top (before ++ line :: after) bottom ∧
        IsLineAt document offset (top ++ before) line (after ++ bottom) ∧
        span = runSpan top (before ++ line :: after)
  steady : ∀ document offset span, scope? document offset = some span →
    ∀ other, span.contains other → scope? document other = some span

theorem findsRuns_lineRun? (test : Text → Bool) : FindsRuns test (lineRun? test) where
  noneIff := fun _ _ => lineRun?_eq_none_iff
  run := fun _ _ _ => exists_run_of_lineRun?
  steady := by
    intro document offset span found other inside
    obtain ⟨top, before, line, after, bottom, run, -, rfl⟩ := exists_run_of_lineRun? found
    obtain ⟨before', line', after', same, there⟩ := exists_isLineAt_of_run run.split inside
    rw [same] at run ⊢
    exact lineRun?_of_run run there

/-- The line comments around an offset are a maximal run of comment lines, and the prose around it
is a maximal run of lines that are not empty. -/
theorem scopes_findRuns :
    FindsRuns isCommentLine commentScope? ∧
      FindsRuns (fun line => !isEmptyLine line) proseScope? :=
  ⟨findsRuns_lineRun? isCommentLine, findsRuns_lineRun? _⟩

/-- Comment lines of both kinds between other lines. -/
def commentedLines : Text := "x\n# a\n\t// b\ny".toList

/-- From every offset of the two comment lines their span is given. -/
theorem commentScope?_commentedLines : commentScope? commentedLines 8 = some ⟨2, 12⟩ ∧
    ∀ other, 2 ≤ other → other < 12 → commentScope? commentedLines other = some ⟨2, 12⟩ := by
  have found : commentScope? commentedLines 8 = some ⟨2, 12⟩ := by decide
  refine ⟨found, fun other starts stops => ?_⟩
  exact scopes_findRuns.1.steady _ _ _ found other (Span.contains_iff.2 ⟨starts, stops⟩)

end Reflow
