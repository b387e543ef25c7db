import Reflow.Proofs.Diagnostics
import Reflow.Proofs.FinalLineBreaks

/-!
# Reading line by line

Visits that miss nothing at the end of an input that ends with a line break, unless they read all of
it (`Linewise`). The only way to the end is over the last line break: a part that gets there has
read it, and what comes behind that part has to be content with nothing (`Reader.Chained`). This is
kept by every kind of atom (`Linewise.inherited_linewise`). So it holds for the visits of an
expression whose sequences are chained and whose repetitions need at most one round
(`Expr.ByLines`), and for those of a rule if all rules are made so.
-/

namespace Reflow

open Text Document List Plain

/-! ## Reading up to a line break -/

namespace Reader

/-- A reader never reads a line break. -/
def SparesBreaks (reader : Reader) : Prop :=
  ∀ (input : Text) (part : Part) (rest : Text), reader input = some (part, rest) →
    '\n' ∉ part.chars

theorem Stays.sparesBreaks {reader : Reader} (stays : reader.Stays) : reader.SparesBreaks := by
  intro input part rest read
  by_cases breaks : '\n' ∈ input
  · obtain ⟨line, more, rfl, clean⟩ := eq_append_cons_of_mem breaks
    rw [stays.within more clean] at read
    obtain ⟨⟨inner, left⟩, alone, same⟩ := Option.map_eq_some_iff.1 read
    cases same
    rw [stays.splits.split alone] at clean
    exact fun inside => clean (mem_append_left _ inside)
  · rw [stays.splits.split read] at breaks
    exact fun inside => breaks (mem_append_left _ inside)

theorem SparesBreaks.readAll {readers : List Reader}
    (each : ∀ reader ∈ readers, reader.SparesBreaks) {input rest : Text} {parts : List Part}
    (read : Reader.readAll readers input = some (parts, rest)) : '\n' ∉ Part.charsAll parts := by
  induction readers generalizing input parts with
  | nil =>
    cases read
    simp
  | cons reader readers ih =>
    rw [Reader.readAll] at read
    split at read
    · cases read
    · next part left first =>
      split at read
      · cases read
      · next others stop later =>
        cases read
        rw [Part.charsAll, mem_append, not_or]
        refine ⟨each reader mem_cons_self _ _ _ first, ih ?_ later⟩
        exact (forall_mem_cons.mp each).2

theorem SparesBreaks.sequence {readers : List Reader}
    (each : ∀ reader ∈ readers, reader.SparesBreaks) : (sequence readers).SparesBreaks := by
  intro input part rest read
  obtain ⟨⟨parts, left⟩, all, same⟩ := Option.map_eq_some_iff.1 read
  cases same
  rw [Part.chars]
  exact readAll each all

theorem SparesBreaks.map {reader : Reader} (spares : reader.SparesBreaks) {change : Part → Part}
    (same : ∀ part, (change part).chars = part.chars) : (map change reader).SparesBreaks := by
  intro input part rest read
  obtain ⟨⟨inner, left⟩, found, changed⟩ := Option.map_eq_some_iff.1 read
  cases changed
  rw [same]
  exact spares _ _ _ found

/-- What comes behind each of some readers can be read where the text ends, unless the reader never
gets there because a line break comes before. -/
def Chained : List Reader → Prop
  | [] => True
  | reader :: readers =>
    (reader.SparesBreaks ∨ ∃ parts, readAll readers [] = some (parts, [])) ∧ Chained readers

/-- A repetition has no upper bound and needs at most one round. -/
abbrev AtMostOne (least : Nat) (most : Option Nat) : Prop := least ≤ 1 ∧ most = none

/-- Readers that leave the line breaks, and any reader behind them. -/
theorem chained_line {readers : List Reader} (each : ∀ reader ∈ readers, reader.SparesBreaks)
    (last : Reader) : Chained (readers ++ [last]) := by
  induction readers with
  | nil => exact ⟨.inr ⟨[], rfl⟩, trivial⟩
  | cons reader readers ih =>
    refine ⟨.inl (each reader mem_cons_self), ih fun other member => ?_⟩
    exact each other (mem_cons_of_mem _ member)

/-- Any number of rounds can be read where the text ends. -/
theorem chained_many (first : Reader) {inner : Reader} (splits : inner.Splits) :
    Chained [first, repetition inner 0 none] := by
  refine ⟨.inr ?_, .inr ⟨[], rfl⟩, trivial⟩
  have nothing := splits.rounds none 1 0 []
  rw [eq_comm, append_eq_nil_iff] at nothing
  refine ⟨[.list (rounds inner none 1 0 []).1], ?_⟩
  have read : repetition inner 0 none [] = some (.list (rounds inner none 1 0 []).1, []) := by
    rw [repetition, length_nil]
    dsimp only
    rw [if_neg (Nat.not_lt_zero _), nothing.2]
  simp only [Reader.readAll, read]

end Reader

/-- Of a text that ends with a line break, what is left ends with it or is nothing. -/
theorem endsLine_of_append {front rest : Text} (ends : endsLine (front ++ rest))
    (someChar : rest ≠ []) : endsLine rest := by
  rw [endsLine, List.getLast?_append, List.getLast?_eq_some_getLast someChar, Option.some_or]
    at ends
  rw [endsLine, List.getLast?_eq_some_getLast someChar]
  exact ends

/-- The end of the input, seen from a place. -/
def Cursor.inputEnd (cursor : Cursor) : Nat := cursor.offset + byteLength cursor.rest

theorem Cursor.inputEnd_advance {cursor : Cursor} {text rest : Text}
    (split : cursor.rest = text ++ rest) :
    (cursor.advance text rest).inputEnd = cursor.inputEnd := by
  rw [inputEnd, inputEnd, split, byteLength_append]
  simp [advance, Nat.add_assoc]

theorem Cursor.offset_lt_inputEnd {cursor : Cursor} (ends : endsLine cursor.rest) :
    cursor.offset < cursor.inputEnd := by
  have someChar : byteLength cursor.rest ≠ 0 := by
    intro nothing
    rw [byteLength_eq_zero nothing] at ends
    cases ends
  rw [inputEnd]
  omega

/-! ## Visits that miss nothing at the end -/

/-- A visitor follows a reader. Where the rest of the input ends with a line break, it reads all of
it or misses nothing at the end of the input. -/
structure Linewise (visit : Cursor → Plain.Trace) (reader : Reader) : Prop where
  splits : reader.Splits
  follows : Follows visit reader
  short : ∀ cursor, endsLine cursor.rest → (∃ part, reader cursor.rest = some (part, [])) ∨
    ∀ miss ∈ (visit cursor).2, miss.position < cursor.inputEnd

namespace Plain

section Ends

variable {frame : Frame} {cursor : Cursor} (ends : endsLine cursor.rest)

include ends

theorem short_miss
    (what : String) : ∀ missed ∈ miss frame cursor what, missed.position < cursor.inputEnd := by
  intro missed member
  rw [miss] at member
  split at member
  · cases member
  · rw [mem_singleton.1 member]
    exact Cursor.offset_lt_inputEnd ends

theorem short_piece (stop : Option Cursor) (what : String) :
    ∀ miss ∈ (piece frame cursor stop what).2, miss.position < cursor.inputEnd := by
  cases stop with
  | none => exact short_miss ends what
  | some stop => simp [piece]

/-- The parts of a check are tried in silence, so only the check itself is missed. -/
theorem short_lookahead (positive : Bool) (what : String) {trace : Trace} (silent : trace.2 = []) :
    ∀ miss ∈ (lookahead frame cursor positive what trace).2, miss.position < cursor.inputEnd := by
  obtain ⟨outcome, misses⟩ := trace
  cases silent
  cases outcome with
  | aborted error => simp [lookahead]
  | _ =>
    unfold lookahead
    dsimp only
    split
    · simp
    · exact short_miss ends what

end Ends

theorem misses_mapTree (change : Tree → Cursor → Tree) (trace : Trace) :
    (mapTree change trace).2 = trace.2 := by
  obtain ⟨outcome, misses⟩ := trace
  cases outcome <;> rfl

end Plain

namespace Linewise

variable {visit : Nat → Cursor → Plain.Trace} {atoms : List Nat} {readers : List Reader}

section Each

variable (each : Forall₂ (fun atom => Linewise (visit atom)) atoms readers)

include each

theorem splits_of_forall₂ : ∀ reader ∈ readers, reader.Splits := by
  induction each with
  | nil => simp
  | cons first _ ih => exact forall_mem_cons.2 ⟨first.splits, ih⟩

theorem short_readAll
    (chained : Reader.Chained readers) (start : Cursor) (trees : List Tree) {cursor : Cursor}
    (ends : endsLine cursor.rest) :
    (∃ parts, Reader.readAll readers cursor.rest = some (parts, [])) ∨
      ∀ miss ∈ (Plain.sequence visit start atoms trees cursor).2,
        miss.position < cursor.inputEnd := by
  induction each generalizing trees cursor with
  | nil => exact .inr (by simp [Plain.sequence, listTree])
  | @cons atom reader atoms readers first later ih =>
    have outcome := first.follows cursor
    have short := first.short cursor ends
    obtain ⟨reaches, chained⟩ := chained
    rw [Plain.sequence, Reader.readAll]
    generalize visit atom cursor = trace at outcome short
    obtain ⟨result, misses⟩ := trace
    cases read : reader cursor.rest with
    | none =>
      rw [read] at outcome short
      cases outcome
      exact .inr (short.resolve_left (by simp))
    | some found =>
      obtain ⟨part, rest⟩ := found
      rw [read] at outcome short
      cases outcome
      have split := first.splits.split read
      by_cases nothing : rest = []
      · subst nothing
        -- The line break at the end was read, so all the others read nothing more.
        have breaks : ¬reader.SparesBreaks := by
          intro spares
          have clean := spares _ _ _ read
          rw [split, append_nil] at ends
          rw [endsLine_of_unbroken clean] at ends
          cases ends
        obtain ⟨parts, others⟩ := reaches.resolve_left breaks
        exact .inl ⟨part :: parts, by simp only [others]⟩
      · have front := short.resolve_left (by simpa using nothing)
        rw [split] at ends
        have behind := @ih chained (part.treeAt cursor.offset :: trees)
          (cursor.advance part.chars rest) (endsLine_of_append ends nothing)
        rw [Cursor.inputEnd_advance split, Cursor.rest_advance] at behind
        rcases behind with ⟨parts, all⟩ | back
        · exact .inl ⟨part :: parts, by simp only [all]⟩
        · exact .inr (forall_mem_append.mpr ⟨front, back⟩)

theorem short_sequence
    (chained : Reader.Chained readers) {cursor : Cursor} (ends : endsLine cursor.rest) :
    (∃ part, Reader.sequence readers cursor.rest = some (part, [])) ∨
      ∀ miss ∈ (Plain.sequence visit cursor atoms [] cursor).2, miss.position < cursor.inputEnd := by
  refine (short_readAll each chained cursor [] ends).imp_left ?_
  rintro ⟨parts, all⟩
  exact ⟨.list parts, by rw [Reader.sequence, all]; rfl⟩

theorem short_choice {cursor : Cursor} (ends : endsLine cursor.rest) :
    (∃ part, Reader.choice readers cursor.rest = some (part, [])) ∨
      ∀ miss ∈ (choice visit cursor atoms).2, miss.position < cursor.inputEnd := by
  induction each with
  | nil => exact .inr (by simp [choice])
  | @cons atom reader atoms readers first later ih =>
    have outcome := first.follows cursor
    have short := first.short cursor ends
    rw [choice, Reader.choice]
    generalize visit atom cursor = trace at outcome short
    obtain ⟨result, misses⟩ := trace
    cases read : reader cursor.rest with
    | none =>
      rw [read] at outcome short
      cases outcome
      have front := short.resolve_left (by simp)
      rcases ih with found | back
      · exact .inl found
      · exact .inr (forall_mem_append.mpr ⟨front, back⟩)
    | some found =>
      rw [read] at outcome short
      cases outcome
      exact short

end Each

/-- An atom again and again: the end of the input is reached by a round that reads up to it. -/
theorem short_rounds {visit : Cursor → Plain.Trace} {reader : Reader}
    (each : Linewise visit reader) (start : Cursor) (least bound : Nat) (trees : List Tree)
    {cursor : Cursor} (ends : endsLine cursor.rest) :
    (∃ parts, parts ≠ [] ∧
      Reader.rounds reader none bound trees.length cursor.rest = (parts, [])) ∨
      ∀ miss ∈ (Plain.repetition visit start least none bound trees cursor).2,
        miss.position < cursor.inputEnd := by
  have quiet : ∀ stop trees, (Plain.endRepetition start stop least trees).2 = [] := by
    intro stop trees
    unfold Plain.endRepetition
    split <;> rfl
  induction bound generalizing trees cursor with
  | zero =>
    rw [Plain.repetition, quiet]
    exact .inr (by simp)
  | succ bound ih =>
    have outcome := each.follows cursor
    have short := each.short cursor ends
    have free : belowMost none trees.length := rfl
    rw [Plain.repetition, Reader.rounds, if_pos free, if_pos free]
    generalize visit cursor = trace at outcome short
    obtain ⟨result, misses⟩ := trace
    cases read : reader cursor.rest with
    | none =>
      rw [read] at outcome short
      cases outcome
      dsimp only
      rw [Plain.after, quiet, append_nil]
      exact .inr (short.resolve_left (by simp))
    | some found =>
      obtain ⟨part, rest⟩ := found
      rw [read] at outcome short
      cases outcome
      have split := each.splits.split read
      dsimp only
      by_cases idle : part.chars = []
      · have left : rest ≠ [] := by
          rw [split, idle, nil_append] at ends
          rintro rfl
          cases ends
        have still : (cursor.advance part.chars rest).offset = cursor.offset := by
          simp [Cursor.advance, idle]
        rw [if_pos still, if_pos idle, Plain.after, quiet, append_nil]
        exact .inr (short.resolve_left (by simpa using left))
      · have moved : ¬(cursor.advance part.chars rest).offset = cursor.offset := by
          intro still
          exact idle (byteLength_eq_zero (by simpa [Cursor.advance] using still))
        rw [if_neg moved, if_neg idle]
        by_cases nothing : rest = []
        · subst nothing
          have stop := each.splits.rounds none bound (trees.length + 1) []
          rw [eq_comm, append_eq_nil_iff] at stop
          exact .inl ⟨_, cons_ne_nil _ _, by rw [stop.2]⟩
        · have front := short.resolve_left (by simpa using nothing)
          rw [split] at ends
          have behind := @ih (part.treeAt cursor.offset :: trees)
            (cursor.advance part.chars rest) (endsLine_of_append ends nothing)
          rw [Cursor.inputEnd_advance split, Cursor.rest_advance, length_cons] at behind
          rcases behind with ⟨parts, -, all⟩ | back
          · exact .inl ⟨part :: parts, cons_ne_nil _ _, by rw [all]⟩
          · exact .inr (forall_mem_append.mpr ⟨front, back⟩)

theorem short_repetition {visit : Cursor → Plain.Trace} {reader : Reader}
    (each : Linewise visit reader) {least : Nat} (few : least ≤ 1) {cursor : Cursor}
    (ends : endsLine cursor.rest) :
    (∃ part, Reader.repetition reader least none cursor.rest = some (part, [])) ∨
      ∀ miss ∈ (repetition visit cursor least none (cursor.rest.length + 1) [] cursor).2,
        miss.position < cursor.inputEnd := by
  refine (each.short_rounds cursor least (cursor.rest.length + 1) [] ends).imp_left ?_
  rintro ⟨parts, somePart, all⟩
  rw [length_nil] at all
  have many : ¬parts.length < least := by
    have someLength := length_pos_of_ne_nil somePart
    omega
  exact ⟨.list parts, by rw [Reader.repetition, all]; exact if_neg many⟩

theorem short_map {visit : Cursor → Plain.Trace} {reader : Reader} (inner : Linewise visit reader)
    (change : Part → Part) {cursor : Cursor} (ends : endsLine cursor.rest) :
    (∃ part, Reader.map change reader cursor.rest = some (part, [])) ∨
      ∀ miss ∈ (visit cursor).2, miss.position < cursor.inputEnd := by
  refine (inner.short cursor ends).imp_left ?_
  rintro ⟨part, read⟩
  exact ⟨change part, by rw [Reader.map, read]; rfl⟩

/-- Going line by line is handed on if sequences are chained, and if repetitions have no upper bound
and need at most one round. -/
theorem inherited_linewise {grammar : Grammar} {limits : Limits} :
    grammar.Inherited limits Linewise Reader.Chained Reader.AtMostOne where
  literal := fun frame text what =>
    ⟨Reader.splits_literal text, piece_literal frame text what,
      fun _ ends => .inr (short_piece ends _ what)⟩
  machine := fun frame machine what =>
    ⟨Reader.splits_machine machine, piece_machine frame machine what,
      fun _ ends => .inr (short_piece ends _ what)⟩
  sequence := fun each chained =>
    ⟨.sequence (splits_of_forall₂ each), follows_sequence (each.imp fun _ _ => follows),
      fun _ ends => short_sequence each chained ends⟩
  choice := fun each =>
    ⟨.choice (splits_of_forall₂ each), follows_choice (each.imp fun _ _ => follows),
      fun _ ends => short_choice each ends⟩
  repetition := by
    rintro visit reader least _ inner ⟨few, rfl⟩
    exact ⟨inner.splits.repetition least none, follows_repetition inner.follows least none,
      fun _ ends => inner.short_repetition few ends⟩
  capture := fun label inner =>
    ⟨inner.splits.map fun _ => by rw [Part.chars],
      (Grammar.inherited_follows grammar limits).capture label inner.follows,
      fun _ ends => by rw [misses_mapTree]; exact inner.short_map _ ends⟩
  flat := fun inner =>
    ⟨inner.splits.map fun _ => by rw [Part.chars],
      (Grammar.inherited_follows grammar limits).flat inner.follows,
      fun _ ends => by rw [misses_mapTree]; exact inner.short_map _ ends⟩
  lookahead := fun frame positive what inner =>
    ⟨Reader.splits_lookahead _ positive, follows_lookahead inner.follows frame positive what,
      fun _ ends => .inr (short_lookahead ends positive what
        (visit_silent _ _ _ _ rfl _ _))⟩

end Linewise

/-- An expression that is read line by line. -/
abbrev Expr.ByLines (rule : String → Reader) (expr : Expr) : Prop :=
  expr.Meets Reader.Chained Reader.AtMostOne rule

end Reflow
