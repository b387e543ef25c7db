import Reflow.Grammar.Builder
import Reflow.Proofs.Coverage

/-!
# Reading expressions

What an expression reads off the front of a text, told without places: a part holds the texts that
were read, and what is left is a text too. `Expr.read` is defined by the structure of an expression,
given how its references read. The lemmas below tie each of its combinators to the step of plain
evaluation that does the same at a place, and `Part.treeAt` recovers the spans from the texts.
-/

namespace Reflow

open Text List Outcome

/-- A parse tree that holds texts in place of spans. -/
inductive Part where
  | nil
  | text (piece : Text)
  | list (items : List Part)
  | field (label : String) (value : Part)

namespace Part

mutual

def chars : Part → Text
  | nil => []
  | text piece => piece
  | list items => charsAll items
  | field _ value => value.chars

def charsAll : List Part → Text
  | [] => []
  | first :: rest => first.chars ++ charsAll rest

end

attribute [simp] chars charsAll

mutual

/-- The tree of a part that was read from an offset on. -/
def treeAt (start : Nat) : Part → Tree
  | nil => .nil start
  | text piece => .text ⟨start, start + byteLength piece⟩
  | list items => .list ⟨start, start + byteLength (charsAll items)⟩ (treesAt start items)
  | field label value => .field ⟨start, start + byteLength value.chars⟩ label (value.treeAt start)

def treesAt (start : Nat) : List Part → List Tree
  | [] => []
  | first :: rest => first.treeAt start :: treesAt (start + byteLength first.chars) rest

end

end Part

/-- Something that reads a part off the front of a text and leaves the rest. -/
abbrev Reader := Text → Option (Part × Text)

namespace Reader

def readAll : List Reader → Text → Option (List Part × Text)
  | [], input => some ([], input)
  | reader :: readers, input =>
    match reader input with
    | none => none
    | some (part, rest) =>
      match readAll readers rest with
      | none => none
      | some (parts, stop) => some (part :: parts, stop)

def sequence (readers : List Reader) : Reader := fun input =>
  (readAll readers input).map fun (parts, rest) => (.list parts, rest)

def choice : List Reader → Reader
  | [], _ => none
  | reader :: readers, input =>
    match reader input with
    | some found => some found
    | none => choice readers input

/-- Reads a thing again and again, at most a number of times. Nothing is read after an empty
part. -/
def rounds (reader : Reader) (most : Option Nat) : Nat → Nat → Text → List Part × Text
  | 0, _, input => ([], input)
  | bound + 1, count, input =>
    if belowMost most count then
      match reader input with
      | some (part, rest) =>
        if part.chars = [] then ([part], input)
        else
          let (parts, stop) := rounds reader most bound (count + 1) rest
          (part :: parts, stop)
      | none => ([], input)
    else ([], input)

def repetition (reader : Reader) (least : Nat) (most : Option Nat) : Reader := fun input =>
  let (parts, rest) := rounds reader most (input.length + 1) 0 input
  if parts.length < least then none else some (.list parts, rest)

def map (change : Part → Part) (reader : Reader) : Reader := fun input =>
  (reader input).map fun (part, rest) => (change part, rest)

/-- Reads nothing, if something can be read or if it cannot. -/
def lookahead (reader : Reader) (positive : Bool) : Reader := fun input =>
  if (reader input).isSome = positive then some (.nil, input) else none

def literal (text : String) : Reader := fun input =>
  (stripFront? text.toList input).map fun rest => (.text text.toList, rest)

def machine (machine : Machine) : Reader := fun input =>
  (machine.find input).map fun found => (.text (found.before ++ found.matched), found.after)

/-- A text falls into what was read and what was left. -/
structure Splits (reader : Reader) : Prop where
  split : ∀ {input part rest}, reader input = some (part, rest) → input = part.chars ++ rest

end Reader

namespace Expr

mutual

/-- What an expression reads, given what its references read. -/
def read (rule : String → Reader) : Expr → Reader
  | literal text => .literal text
  | regex pattern =>
    match Regex.anchored? pattern with
    | some machine => .machine machine
    | none => fun _ => none
  | reference name => rule name
  | sequence parts => .sequence (readEach rule parts)
  | choice options => .choice (readEach rule options)
  | repetition inner least most => .repetition (inner.read rule) least most
  | capture inner label => .map (.field label) (inner.read rule)
  | lookahead inner positive => .lookahead (inner.read rule) positive
  | flat inner => .map (fun part => .text part.chars) (inner.read rule)

def readEach (rule : String → Reader) : List Expr → List Reader
  | [] => []
  | first :: rest => first.read rule :: readEach rule rest

end

section Equations

variable (rule : String → Reader)

@[simp] theorem read_literal (text : String) : (literal text).read rule = .literal text := rfl

@[simp] theorem read_reference (name : String) : (reference name).read rule = rule name := rfl

@[simp] theorem read_sequence (parts : List Expr) :
    (sequence parts).read rule = .sequence (readEach rule parts) := rfl

@[simp] theorem read_choice (options : List Expr) :
    (choice options).read rule = .choice (readEach rule options) := rfl

@[simp] theorem read_repetition (inner : Expr) (least : Nat) (most : Option Nat) :
    (repetition inner least most).read rule = .repetition (inner.read rule) least most := rfl

@[simp] theorem read_capture (inner : Expr) (label : String) :
    (capture inner label).read rule = .map (.field label) (inner.read rule) := rfl

@[simp] theorem read_lookahead (inner : Expr) (positive : Bool) :
    (lookahead inner positive).read rule = .lookahead (inner.read rule) positive := rfl

@[simp] theorem read_flat (inner : Expr) :
    (flat inner).read rule = .map (fun part => .text part.chars) (inner.read rule) := rfl

@[simp] theorem readEach_nil : readEach rule [] = [] := rfl

@[simp] theorem readEach_cons (first : Expr) (rest : List Expr) :
    readEach rule (first :: rest) = first.read rule :: readEach rule rest := rfl

end Equations

end Expr

variable {reader : Reader}

/-! ## Texts fall into what is read and what is left -/

namespace Reader

variable {readers : List Reader}

section Each

variable (each : ∀ reader ∈ readers, reader.Splits)

include each

theorem Splits.readAll {input : Text}
    {parts : List Part} {rest : Text} (found : Reader.readAll readers input = some (parts, rest)) :
    input = Part.charsAll parts ++ rest := by
  induction readers generalizing input parts with
  | nil =>
    cases found
    rfl
  | cons reader readers ih =>
    simp only [Reader.readAll] at found
    cases first : reader input with
    | none => simp [first] at found
    | some read =>
      obtain ⟨part, middle⟩ := read
      simp only [first] at found
      cases later : Reader.readAll readers middle with
      | none => simp [later] at found
      | some behind =>
        simp only [later, Option.some.injEq, Prod.mk.injEq] at found
        obtain ⟨rfl, rfl⟩ := found
        have front := (each reader mem_cons_self).split first
        have back := ih (forall_mem_cons.mp each).2 later
        rw [Part.charsAll, append_assoc, ← back]
        exact front

theorem Splits.sequence : (sequence readers).Splits := by
  refine ⟨fun {input part rest} found => ?_⟩
  obtain ⟨⟨parts, stop⟩, read, same⟩ := Option.map_eq_some_iff.mp found
  cases same
  simpa only [Part.chars] using Splits.readAll each read

theorem Splits.choice : (choice readers).Splits := by
  refine ⟨fun {input part rest} found => ?_⟩
  induction readers with
  | nil => cases found
  | cons reader readers ih =>
    simp only [Reader.choice] at found
    cases first : reader input with
    | none =>
      rw [first] at found
      exact ih (forall_mem_cons.mp each).2 found
    | some read =>
      rw [first] at found
      cases found
      exact (each reader mem_cons_self).split first

end Each

theorem Splits.rounds (splits : reader.Splits) (most : Option Nat) (bound count : Nat)
    (input : Text) :
    input = Part.charsAll (Reader.rounds reader most bound count input).1 ++
      (Reader.rounds reader most bound count input).2 := by
  induction bound generalizing count input with
  | zero => rfl
  | succ bound ih =>
    unfold Reader.rounds
    split
    · cases first : reader input with
      | none => rfl
      | some read =>
        obtain ⟨part, rest⟩ := read
        dsimp only
        split
        · next idle => simp [idle]
        · rw [Part.charsAll, append_assoc, ← ih]
          exact splits.split first
    · rfl

theorem Splits.repetition (splits : reader.Splits) (least : Nat) (most : Option Nat) :
    (repetition reader least most).Splits := by
  refine ⟨fun {input part rest} found => ?_⟩
  unfold Reader.repetition at found
  dsimp only at found
  split at found
  · cases found
  · cases found
    rw [Part.chars]
    exact splits.rounds most _ 0 input

theorem Splits.map (splits : reader.Splits) {change : Part → Part}
    (same : ∀ part, (change part).chars = part.chars) : (map change reader).Splits := by
  refine ⟨fun {input part rest} found => ?_⟩
  obtain ⟨⟨inner, stop⟩, read, changed⟩ := Option.map_eq_some_iff.mp found
  cases changed
  rw [same]
  exact splits.split read

theorem splits_none : Splits fun _ => none := by
  refine ⟨fun {input part rest} found => ?_⟩
  cases found

theorem splits_lookahead (reader : Reader) (positive : Bool) :
    (lookahead reader positive).Splits := by
  refine ⟨fun {input part rest} found => ?_⟩
  unfold Reader.lookahead at found
  split at found
  · cases found
    rw [Part.chars, nil_append]
  · cases found

theorem splits_literal (text : String) : (literal text).Splits := by
  refine ⟨fun {input part rest} found => ?_⟩
  obtain ⟨stop, stripped, same⟩ := Option.map_eq_some_iff.mp found
  cases same
  rw [Part.chars]
  exact stripFront?_eq_some.mp stripped

theorem splits_machine (machine : Machine) : (Reader.machine machine).Splits := by
  refine ⟨fun {input part rest} found => ?_⟩
  obtain ⟨hit, search, same⟩ := Option.map_eq_some_iff.mp found
  cases same
  rw [Part.chars]
  exact (Machine.split_of_find search).symm

end Reader

namespace Expr

mutual

theorem splits_read {rule : String → Reader} (rules : ∀ name, (rule name).Splits) :
    (expr : Expr) → (expr.read rule).Splits
  | literal text => Reader.splits_literal text
  | regex pattern => by
    rw [read]
    cases Regex.anchored? pattern with
    | none => exact Reader.splits_none
    | some machine => exact Reader.splits_machine machine
  | reference name => rules name
  | sequence parts => Reader.Splits.sequence (splits_readEach rules parts)
  | choice options => Reader.Splits.choice (splits_readEach rules options)
  | repetition inner least most => (splits_read rules inner).repetition least most
  | capture inner label => (splits_read rules inner).map fun _ => by rw [Part.chars]
  | lookahead inner positive => Reader.splits_lookahead _ positive
  | flat inner => (splits_read rules inner).map fun _ => by rw [Part.chars]

theorem splits_readEach {rule : String → Reader} (rules : ∀ name, (rule name).Splits) :
    (exprs : List Expr) → ∀ reader ∈ readEach rule exprs, reader.Splits
  | [], reader, member => absurd member not_mem_nil
  | first :: rest, reader, member => by
    rcases mem_cons.mp member with rfl | member
    · exact splits_read rules first
    · exact splits_readEach rules rest reader member

end

end Expr

/-! ## Reading at a place -/

namespace Cursor

@[simp] theorem rest_advance (cursor : Cursor) (text rest : Text) :
    (cursor.advance text rest).rest = rest := rfl

theorem advance_nil (cursor : Cursor) : cursor.advance [] cursor.rest = cursor := rfl

theorem advance_advance (cursor : Cursor) (first second rest stop : Text) :
    (cursor.advance first rest).advance second stop = cursor.advance (first ++ second) stop := by
  simp [advance, Nat.add_assoc]

end Cursor

namespace Outcome

/-- What reading at a place gives. -/
def ofReading (cursor : Cursor) : Option (Part × Text) → Outcome Tree
  | some (part, rest) => matched (part.treeAt cursor.offset) (cursor.advance part.chars rest)
  | none => failed

theorem isSettled_ofReading (cursor : Cursor) (reading : Option (Part × Text)) :
    (ofReading cursor reading).isSettled := by
  cases reading <;> rfl

/-- The outcome of a list whose last items were read from a place on, behind trees that are given
last one first. -/
def ofItems (start cursor : Cursor) (trees : List Tree) (parts : List Part) (rest : Text) :
    Outcome Tree :=
  let stop := cursor.advance (Part.charsAll parts) rest
  matched (.list (start.spanTo stop) (trees.reverse ++ Part.treesAt cursor.offset parts)) stop

theorem ofItems_cons (start cursor : Cursor) (trees : List Tree) (part : Part) (parts : List Part)
    (rest stop : Text) :
    ofItems start (cursor.advance part.chars rest) (part.treeAt cursor.offset :: trees) parts stop =
      ofItems start cursor trees (part :: parts) stop := by
  simp only [ofItems, Cursor.advance_advance, Part.charsAll, Part.treesAt, reverse_cons,
    append_assoc, singleton_append]
  rfl

theorem ofItems_nil (start cursor : Cursor) (trees : List Tree) :
    (Plain.listTree start cursor trees).1 = ofItems start cursor trees [] cursor.rest := by
  simp [ofItems, Plain.listTree, Part.treesAt, Cursor.advance_nil]

end Outcome

/-- A visitor does at every place what a reader does there. -/
def Follows (visit : Cursor → Plain.Trace) (reader : Reader) : Prop :=
  ∀ cursor, (visit cursor).1 = .ofReading cursor (reader cursor.rest)

namespace Plain

theorem piece_literal (frame : Frame) (text what : String) :
    Follows (fun cursor => piece frame cursor (matchLiteral text cursor) what)
      (.literal text) := by
  intro cursor
  dsimp only [matchLiteral, Reader.literal]
  cases stripFront? text.toList cursor.rest <;> rfl

theorem piece_machine (frame : Frame) (machine : Machine) (what : String) :
    Follows (fun cursor => piece frame cursor (matchRegex machine cursor) what)
      (.machine machine) := by
  intro cursor
  dsimp only [matchRegex, Reader.machine]
  cases machine.find cursor.rest <;> rfl

section Parts

variable {visit : Nat → Cursor → Trace} {atoms : List Nat} {readers : List Reader}
  (follows : Forall₂ (fun atom => Follows (visit atom)) atoms readers)

include follows

theorem sequence_readAll (start cursor : Cursor) (trees : List Tree) :
    (sequence visit start atoms trees cursor).1 =
      match Reader.readAll readers cursor.rest with
      | some (parts, rest) => .ofItems start cursor trees parts rest
      | none => .failed := by
  induction follows generalizing trees cursor with
  | nil => exact ofItems_nil start cursor trees
  | @cons atom reader atoms readers first others ih =>
    rw [sequence_cons_outcome, first cursor, Reader.readAll]
    cases reader cursor.rest with
    | none => rfl
    | some read =>
      obtain ⟨part, rest⟩ := read
      simp only [ofReading, resume]
      rw [ih]
      simp only [Cursor.advance]
      cases Reader.readAll readers rest with
      | none => rfl
      | some behind => exact ofItems_cons start cursor trees part behind.1 rest _

theorem follows_sequence :
    Follows (fun cursor => sequence visit cursor atoms [] cursor) (.sequence readers) := by
  intro cursor
  rw [sequence_readAll follows, Reader.sequence]
  cases Reader.readAll readers cursor.rest <;> rfl

theorem follows_choice : Follows (fun cursor => choice visit cursor atoms) (.choice readers) := by
  intro cursor
  induction follows with
  | nil => rfl
  | @cons atom reader atoms readers first others ih =>
    rw [choice_cons_outcome, first cursor, Reader.choice]
    cases reader cursor.rest with
    | none => exact ih
    | some read => rfl

end Parts

theorem endRepetition_ofItems (start cursor : Cursor) (least : Nat) (trees : List Tree) :
    (endRepetition start cursor least trees).1 =
      if trees.length < least then .failed else .ofItems start cursor trees [] cursor.rest := by
  unfold endRepetition
  split
  · rfl
  · exact ofItems_nil start cursor trees

variable {visit : Cursor → Trace}

section Follows

variable (follows : Follows visit reader)

include follows

theorem repetition_rounds (start : Cursor) (least : Nat)
    (most : Option Nat) (bound : Nat) (trees : List Tree) (cursor : Cursor) :
    (repetition visit start least most bound trees cursor).1 =
      let (parts, rest) := Reader.rounds reader most bound trees.length cursor.rest
      if trees.length + parts.length < least then .failed
      else .ofItems start cursor trees parts rest := by
  induction bound generalizing trees cursor with
  | zero => exact endRepetition_ofItems start cursor least trees
  | succ bound ih =>
    rw [repetition_succ_outcome, Reader.rounds, follows cursor]
    split
    · cases reader cursor.rest with
      | none => exact endRepetition_ofItems start cursor least trees
      | some read =>
        obtain ⟨part, rest⟩ := read
        simp only [ofReading, resume]
        by_cases idle : part.chars = []
        · -- The round consumed nothing, so the repetition ends where the round began.
          rw [if_pos idle, if_pos (by simp [idle, Cursor.advance]), endRepetition_ofItems]
          have same : ofItems start cursor (part.treeAt cursor.offset :: trees) []
              cursor.rest = .ofItems start cursor trees [part] cursor.rest := by
            have step := ofItems_cons start cursor trees part [] cursor.rest cursor.rest
            rwa [idle, Cursor.advance_nil] at step
          rw [same]
          rfl
        · have moved : ¬ (cursor.advance part.chars rest).offset = cursor.offset := by
            intro stayed
            exact idle (byteLength_eq_zero (by simpa [Cursor.advance] using stayed))
          rw [if_neg idle, if_neg moved, ih]
          have step := ofItems_cons start cursor trees part
          simp only [length_cons, Cursor.rest_advance, step, Nat.add_assoc, Nat.add_comm 1]
    · exact endRepetition_ofItems start cursor least trees

theorem follows_repetition (least : Nat) (most : Option Nat) :
    Follows (fun cursor =>
        repetition visit cursor least most (cursor.rest.length + 1) [] cursor)
      (.repetition reader least most) := by
  intro cursor
  rw [repetition_rounds follows, Reader.repetition]
  simp only [length_nil, Nat.zero_add]
  split <;> rfl

theorem follows_map (change : Cursor → Tree → Cursor → Tree)
    (change' : Part → Part) (same : ∀ cursor part rest,
      change cursor (part.treeAt cursor.offset) (cursor.advance part.chars rest) =
        (change' part).treeAt cursor.offset) (kept : ∀ part, (change' part).chars = part.chars) :
    Follows (fun cursor => mapTree (change cursor) (visit cursor)) (.map change' reader) := by
  intro cursor
  rw [mapTree_outcome, follows cursor, Reader.map]
  cases reader cursor.rest with
  | none => rfl
  | some read =>
    obtain ⟨part, rest⟩ := read
    simp only [ofReading, resume, Option.map_some, same, kept]

theorem follows_lookahead (frame : Frame) (positive : Bool)
    (what : String) :
    Follows (fun cursor => lookahead frame cursor positive what (visit cursor))
      (.lookahead reader positive) := by
  intro cursor
  rw [lookahead_outcome, follows cursor, Reader.lookahead]
  cases reader cursor.rest <;> cases positive <;> rfl

end Follows

end Plain

end Reflow
