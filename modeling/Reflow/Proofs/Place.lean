import Reflow.Parsing.Outcome

/-!
# Places of an input

A place takes a text to another place if the text stands between them. Every match goes from a place
to one it takes some text to, so all places of a parse are places of its input, and there the offset
alone tells them apart.
-/

namespace Reflow

open List Option

variable {text : Text} {stop : Cursor} {machine : Machine}

namespace Text

@[simp] theorem byteLength_nil : byteLength [] = 0 := rfl

@[simp] theorem byteLength_append (first second : Text) :
    byteLength (first ++ second) = byteLength first + byteLength second := by
  induction first with
  | nil => simp [byteLength]
  | cons c rest ih =>
    simp only [cons_append, byteLength, ih]
    omega

/-- Every character takes a byte, so only the empty text takes none. -/
theorem byteLength_eq_zero (noneTaken : byteLength text = 0) : text = [] := by
  cases text with
  | nil => rfl
  | cons c rest =>
    have positive := c.utf8Size_pos
    simp only [byteLength] at noneTaken
    omega

/-- Fronts of one text with the same number of bytes are the same. -/
theorem eq_of_byteLength_eq {front front' back back' : Text}
    (whole : front ++ back = front' ++ back') (size : byteLength front = byteLength front') :
    front = front' ∧ back = back' := by
  induction front generalizing front' with
  | nil =>
    obtain rfl := byteLength_eq_zero size.symm
    exact ⟨rfl, whole⟩
  | cons c rest ih =>
    cases front' with
    | nil => exact absurd (byteLength_eq_zero size) (by simp)
    | cons c' rest' =>
      simp only [cons_append, List.cons.injEq] at whole
      obtain ⟨rfl, whole⟩ := whole
      simp only [byteLength] at size
      obtain ⟨rfl, same⟩ := ih whole (by omega)
      exact ⟨rfl, same⟩

/-- A text is cut where a front of it ends. -/
theorem splitBytes?_append (before after : Text) :
    splitBytes? (byteLength before) (before ++ after) = some (before, after) := by
  induction before with
  | nil => simp [splitBytes?]
  | cons c rest ih =>
    have positive := c.utf8Size_pos
    obtain ⟨size, whole⟩ := Nat.exists_eq_succ_of_ne_zero
      (Nat.ne_of_gt (Nat.lt_add_right (byteLength rest) positive))
    rw [byteLength, whole, cons_append, splitBytes?, if_pos (by omega)]
    have left : size + 1 - c.utf8Size = byteLength rest := by omega
    rw [left, ih]

/-- A text that is cut is the two parts together, and the first one has the bytes that were asked
for. -/
theorem split_of_splitBytes? {offset : Nat} {before after : Text}
    (cut : splitBytes? offset text = some (before, after)) :
    text = before ++ after ∧ offset = byteLength before := by
  induction text generalizing offset before with
  | nil =>
    cases offset with
    | zero => cases cut; exact ⟨rfl, rfl⟩
    | succ offset => cases cut
  | cons c rest ih =>
    cases offset with
    | zero => cases cut; exact ⟨rfl, rfl⟩
    | succ offset =>
      rw [splitBytes?] at cut
      split at cut
      · next fits =>
        split at cut
        · next inner _ found =>
          cases cut
          obtain ⟨rfl, size⟩ := ih found
          refine ⟨rfl, ?_⟩
          rw [byteLength]
          omega
        · cases cut
      · cases cut

theorem slice?_eq_some_iff {span : Span} {inside : Text} :
    span.slice? text = some inside ↔ ∃ before after, text = before ++ inside ++ after ∧
      span.start = byteLength before ∧ span.length = byteLength inside := by
  constructor
  · intro found
    obtain ⟨⟨before, behind⟩, first, later⟩ := bind_eq_some_iff.mp found
    obtain ⟨⟨_, after⟩, second, rfl⟩ := map_eq_some_iff.mp later
    obtain ⟨rfl, start⟩ := split_of_splitBytes? first
    obtain ⟨rfl, length⟩ := split_of_splitBytes? second
    exact ⟨before, after, (append_assoc ..).symm, start, length⟩
  · rintro ⟨before, after, rfl, start, length⟩
    rw [Span.slice?, start, length, append_assoc, splitBytes?_append, bind_some,
      splitBytes?_append, map_some]

theorem splitBytes_append (front back : Text) :
    takeBytes (byteLength front) (front ++ back) = front ∧
      dropBytes (byteLength front) (front ++ back) = back := by
  induction front with
  | nil =>
    cases back with
    | nil => exact ⟨rfl, rfl⟩
    | cons c rest =>
      have none : ¬c.utf8Size ≤ 0 := by have := c.utf8Size_pos; omega
      simp [takeBytes, dropBytes, none]
  | cons c rest ih =>
    simp only [byteLength, cons_append, takeBytes, dropBytes]
    rw [if_pos (Nat.le_add_right _ _), if_pos (Nat.le_add_right _ _), Nat.add_sub_cancel_left,
      ih.1, ih.2]
    exact ⟨rfl, rfl⟩

/-- A piece of a text is what the span of its offsets cuts out. -/
theorem slice_append (before piece after : Text) :
    Span.slice ⟨byteLength before, byteLength before + byteLength piece⟩
      (before ++ piece ++ after) = piece := by
  rw [Span.slice, Span.length, Nat.add_sub_cancel_left, append_assoc, (splitBytes_append ..).2,
    (splitBytes_append ..).1]

end Text

open Text

namespace Cursor

/-- The text stands between two places. -/
structure Takes (start : Cursor) (text : Text) (stop : Cursor) : Prop where
  restEq : start.rest = text ++ stop.rest
  offsetEq : stop.offset = start.offset + byteLength text

/-- A place of an input. -/
def In (cursor : Cursor) (input : Text) : Prop :=
  ∃ before, Takes ⟨0, input⟩ before cursor

namespace Takes

theorem refl (cursor : Cursor) : cursor.Takes [] cursor := ⟨rfl, rfl⟩

theorem trans {start middle : Cursor} {first second : Text}
    (front : start.Takes first middle) (back : middle.Takes second stop) :
    start.Takes (first ++ second) stop := by
  refine ⟨?_, ?_⟩
  · rw [front.restEq, back.restEq, append_assoc]
  · rw [back.offsetEq, front.offsetEq, byteLength_append, Nat.add_assoc]

theorem advance {start : Cursor} {rest : Text} (split : start.rest = text ++ rest) :
    start.Takes text (start.advance text rest) := ⟨split, rfl⟩

section Takes

variable {start : Cursor} (takes : start.Takes text stop)

include takes

/-- The text and the place before it determine the place behind it. -/
theorem stop_unique {stop' : Cursor} (takes' : start.Takes text stop') : stop = stop' := by
  have rests : stop.rest = stop'.rest :=
    append_cancel_left (takes.restEq.symm.trans takes'.restEq)
  have offsets : stop.offset = stop'.offset := takes.offsetEq.trans takes'.offsetEq.symm
  cases stop
  cases stop'
  simp_all

/-- A place at the same offset behind a place is that place. -/
theorem eq_of_offset_eq (same : stop.offset = start.offset) : text = [] ∧ stop = start := by
  have empty : text = [] := byteLength_eq_zero (by have := takes.offsetEq; omega)
  subst empty
  exact ⟨rfl, takes.stop_unique (.refl start)⟩

theorem offset_mono : start.offset ≤ stop.offset := by
  rw [takes.offsetEq]
  exact Nat.le_add_right _ _

theorem length_eq : start.rest.length = text.length + stop.rest.length := by
  rw [takes.restEq, length_append]

end Takes

end Takes

namespace In

theorem start (input : Text) : In ⟨0, input⟩ input := ⟨[], .refl _⟩

variable {input : Text}

/-- What stands behind a place of an input is a place of the input. -/
theorem after {start : Cursor} (inside : start.In input) (takes : start.Takes text stop) :
    stop.In input := by
  obtain ⟨before, reached⟩ := inside
  exact ⟨before ++ text, reached.trans takes⟩

/-- The places of an input differ in their offsets. -/
theorem eq_of_offset_eq {first second : Cursor} (inside : first.In input)
    (inside' : second.In input) (same : first.offset = second.offset) : first = second := by
  obtain ⟨before, reached⟩ := inside
  obtain ⟨before', reached'⟩ := inside'
  have sizes : byteLength before = byteLength before' := by
    have left := reached.offsetEq
    have right := reached'.offsetEq
    omega
  obtain ⟨rfl, _⟩ :=
    eq_of_byteLength_eq (reached.restEq.symm.trans reached'.restEq) sizes
  exact reached.stop_unique reached'

theorem offset_le {cursor : Cursor} (inside : cursor.In input) :
    cursor.offset + byteLength cursor.rest = byteLength input := by
  obtain ⟨before, reached⟩ := inside
  have whole : input = before ++ cursor.rest := reached.restEq
  have offset : cursor.offset = 0 + byteLength before := reached.offsetEq
  rw [whole, byteLength_append]
  omega

end In

end Cursor

/-! ## Literals -/

theorem stripFront?_eq_some {front rest : Text} :
    stripFront? front text = some rest ↔ text = front ++ rest := by
  induction front generalizing text with
  | nil => simp [stripFront?, eq_comm]
  | cons a front ih =>
    cases text with
    | nil => simp [stripFront?]
    | cons b text =>
      by_cases same : a = b
      · simp [stripFront?, same, ih]
      · simp [stripFront?, same, Ne.symm same]

/-- A literal matches exactly where it stands. -/
theorem matchLiteral_eq_some {text : String} {start : Cursor} :
    matchLiteral text start = some stop ↔ start.Takes text.toList stop := by
  unfold matchLiteral
  constructor
  · intro found
    obtain ⟨rest, stripped, rfl⟩ := map_eq_some_iff.mp found
    exact .advance (stripFront?_eq_some.mp stripped)
  · intro takes
    rw [stripFront?_eq_some.mpr takes.restEq]
    exact congrArg some ((Cursor.Takes.advance takes.restEq).stop_unique takes)

/-! ## Regular expressions -/

namespace Machine

/-- What a run leaves is an end of the text, or what the best match so far left. -/
theorem suffix_of_run {early : Bool} {states : List Nat} {best : Option Text}
    {before : Option Char} {left : Text}
    (found : machine.run early states best before text = some left) :
    left <:+ text ∨ best = some left := by
  induction text generalizing states best before with
  | nil =>
    simp only [run] at found
    split at found
    · exact .inl (by simp_all)
    · exact .inr found
  | cons c rest ih =>
    have kept : ∀ {accepted : Bool}, (if accepted then some (c :: rest) else best) = some left →
        left <:+ c :: rest ∨ best = some left := by
      intro accepted chosen
      cases accepted with
      | false => exact .inr chosen
      | true =>
        obtain rfl := some.inj chosen
        exact .inl (suffix_refl _)
    simp only [run] at found
    split at found
    · exact kept found
    · rcases ih found with behind | chosen
      · exact .inl (behind.trans (suffix_cons c rest))
      · exact kept chosen

/-- What a match at a site leaves is an end of the text there. -/
theorem suffix_of_runAt {early : Bool} {site : Site} {left : Text}
    (found : machine.runAt early site = some left) : left <:+ site.rest := by
  rcases suffix_of_run found with behind | impossible
  · exact behind
  · cases impossible

/-- A text falls into what is before a match, the match and what is after it. -/
theorem split_of_findFrom {early : Bool} {skipped : Text} {before : Option Char}
    {found : Regex.Match} (matched : machine.findFrom early skipped before text = some found) :
    found.before ++ found.matched ++ found.after = skipped.reverse ++ text := by
  induction text generalizing skipped before with
  | nil =>
    simp only [findFrom] at matched
    split at matched
    case h_1 after run =>
      obtain rfl := some.inj matched
      have empty : after = [] := suffix_nil.mp (suffix_of_runAt run)
      simp [empty]
    case h_2 => cases matched
  | cons c rest ih =>
    simp only [findFrom] at matched
    split at matched
    case h_1 after run =>
      obtain rfl := some.inj matched
      obtain ⟨taken, whole⟩ : after <:+ c :: rest := suffix_of_runAt run
      simp [← whole]
    case h_2 =>
      split at matched
      · cases matched
      · simpa using ih matched

theorem split_of_find {found : Regex.Match} (matched : machine.find text = some found) :
    found.before ++ found.matched ++ found.after = text := by
  simpa using split_of_findFrom matched

end Machine

/-- A match of a regular expression takes a text. -/
theorem takes_of_matchRegex {start : Cursor} (matched : matchRegex machine start = some stop) :
    ∃ text, start.Takes text stop := by
  obtain ⟨found, search, rfl⟩ := map_eq_some_iff.mp matched
  exact ⟨_, .advance (Machine.split_of_find search).symm⟩

end Reflow
