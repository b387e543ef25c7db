import Mathlib.Data.List.Forall2
import Reflow.Parsing.Packrat
import Reflow.Parsing.Plain

/-!
# Attempts as scripts

An attempt to match an atom tries parts of it one after the other. An abort of a part ends the
attempt; otherwise the way a part ended decides what is tried next. A script is such a plan. The
parser and plain evaluation perform the same one for every atom (`Parser.attempt_eq`,
`Plain.attempt_eq`), so what holds of every attempt is proved by induction on scripts and not atom
by atom. The scripts of an atom over two kinds of values differ in the values only
(`Script.related_ofAtom`).
-/

namespace Reflow

open List

/-- How an attempt ends after its parts, given the values of those that matched. -/
inductive Ending (α : Type) where
  /-- A match of which the extent is kept. -/
  | text (start stop : Cursor)
  /-- A check that passed. -/
  | nil (cursor : Cursor)
  /-- A match with the values of its parts, last one first. -/
  | list (start stop : Cursor) (values : List α)
  /-- A match with a labelled value. -/
  | field (label : String) (start stop : Cursor) (value : α)
  /-- The match of a part. -/
  | same (value : α) (stop : Cursor)
  | failed
  /-- A failure that was expected to be something. -/
  | missed (cursor : Cursor) (what : String)
  /-- A pattern that does not compile. -/
  | malformed (pattern : String)

/-- What is left to be done in an attempt. -/
inductive Script (α : Type) where
  | done (ending : Ending α)
  | part (atom : Nat) (cursor : Cursor) (onMatch : α → Cursor → Script α) (onFailure : Script α)

namespace Script

variable {α β : Type}

def piece (start : Cursor) (stop : Option Cursor) (what : String) : Script α :=
  match stop with
  | some stop => done (.text start stop)
  | none => done (.missed start what)

def sequence (start : Cursor) : List Nat → List α → Cursor → Script α
  | [], values, cursor => done (.list start cursor values)
  | atom :: rest, values, cursor =>
    part atom cursor (fun value stop => sequence start rest (value :: values) stop) (done .failed)

def choice (cursor : Cursor) : List Nat → Script α
  | [] => done .failed
  | atom :: rest =>
    part atom cursor (fun value stop => done (.same value stop)) (choice cursor rest)

def endRepetition (start stop : Cursor) (least : Nat) (values : List α) : Script α :=
  if values.length < least then done .failed else done (.list start stop values)

def repetition (start : Cursor) (atom least : Nat) (most : Option Nat) :
    Nat → List α → Cursor → Script α
  | 0, values, cursor => endRepetition start cursor least values
  | rounds + 1, values, cursor =>
    if belowMost most values.length then
      part atom cursor
        (fun value stop =>
          if stop.offset = cursor.offset then endRepetition start cursor least (value :: values)
          else repetition start atom least most rounds (value :: values) stop)
        (endRepetition start cursor least values)
    else endRepetition start cursor least values

def check (cursor : Cursor) (passed : Bool) (what : String) : Script α :=
  if passed then done (.nil cursor) else done (.missed cursor what)

def ofAtom (grammar : Grammar) (cursor : Cursor) (atom : Atom) : Script α :=
  match atom with
  | .literal text => piece cursor (matchLiteral text cursor) atom.describe
  | .regex pattern =>
    match Regex.anchored? pattern with
    | none => done (.malformed pattern)
    | some machine => piece cursor (matchRegex machine cursor) atom.describe
  | .sequence parts => sequence cursor parts [] cursor
  | .choice options => choice cursor options
  | .repetition inner least most =>
    repetition cursor inner least most (cursor.rest.length + 1) [] cursor
  | .capture label inner =>
    part inner cursor (fun value stop => done (.field label cursor stop value)) (done .failed)
  | .rule inner => part inner cursor (fun value stop => done (.same value stop)) (done .failed)
  | .lookahead inner positive =>
    let what := lookaheadExpectation grammar.atoms[inner]? positive
    part inner cursor (fun _ _ => check cursor positive what) (check cursor (!positive) what)
  | .flat inner => part inner cursor (fun _ stop => done (.text cursor stop)) (done .failed)

/-! ## What a script tries -/

/-- Everything that a script tries and every pattern that it finds malformed satisfies a condition,
as long as the matches of the parts end at places that satisfy one too. -/
def All (tries : Nat → Cursor → Prop) (reaches : Cursor → Prop) (faults : String → Prop) :
    Script α → Prop
  | done (.malformed pattern) => faults pattern
  | done _ => True
  | part atom cursor onMatch onFailure =>
    tries atom cursor ∧
      (∀ value stop, reaches stop → (onMatch value stop).All tries reaches faults) ∧
      onFailure.All tries reaches faults

section All

variable {tries : Nat → Cursor → Prop} {reaches : Cursor → Prop} {faults : String → Prop}

theorem all_piece (start : Cursor) (stop : Option Cursor) (what : String) :
    (piece start stop what : Script α).All tries reaches faults := by
  cases stop <;> exact trivial

variable {cursor : Cursor}

theorem all_sequence (start : Cursor) {parts : List Nat}
    (tried : ∀ part ∈ parts, ∀ cursor, reaches cursor → tries part cursor) (values : List α)
    (here : reaches cursor) : (sequence start parts values cursor).All tries reaches faults := by
  induction parts generalizing values cursor with
  | nil => exact trivial
  | cons part rest ih =>
    refine ⟨tried part mem_cons_self cursor here, fun value stop there => ?_, trivial⟩
    exact ih (forall_mem_cons.mp tried).2 _ there

theorem all_choice {options : List Nat} (tried : ∀ option ∈ options, tries option cursor) :
    (choice cursor options : Script α).All tries reaches faults := by
  induction options with
  | nil => exact trivial
  | cons option rest ih =>
    refine ⟨tried option mem_cons_self, fun _ _ _ => trivial, ih fun other member => ?_⟩
    exact tried other (mem_cons_of_mem _ member)

theorem all_endRepetition (start stop : Cursor) (least : Nat) (values : List α) :
    (endRepetition start stop least values).All tries reaches faults := by
  unfold endRepetition
  split <;> exact trivial

theorem all_repetition (start : Cursor) {atom : Nat} (least : Nat) (most : Option Nat)
    (tried : ∀ cursor, reaches cursor → tries atom cursor) (rounds : Nat) (values : List α)
    (here : reaches cursor) :
    (repetition start atom least most rounds values cursor).All tries reaches faults := by
  induction rounds generalizing values cursor with
  | zero => exact all_endRepetition start cursor least values
  | succ rounds ih =>
    rw [repetition]
    split
    · refine ⟨tried cursor here, fun value stop there => ?_, all_endRepetition _ _ _ _⟩
      dsimp only
      split
      · exact all_endRepetition _ _ _ _
      · exact ih _ there
    · exact all_endRepetition _ _ _ _

theorem all_check (cursor : Cursor) (passed : Bool) (what : String) :
    (check cursor passed what : Script α).All tries reaches faults := by
  cases passed <;> exact trivial

/-- An attempt tries nothing but the parts of its atom, at the places that it reaches, and finds
nothing malformed but its own pattern. -/
theorem all_ofAtom (grammar : Grammar) (atom : Atom) (here : reaches cursor) :
    (ofAtom grammar cursor atom : Script α).All
      (fun part place => part ∈ atom.children ∧ reaches place) reaches
      (fun pattern => atom = .regex pattern ∧ Regex.anchored? pattern = none) := by
  cases atom with
  | literal text => exact all_piece _ _ _
  | regex pattern =>
    rw [ofAtom]
    split
    · next malformed => exact ⟨rfl, malformed⟩
    · exact all_piece _ _ _
  | sequence parts => exact all_sequence cursor (fun _ member _ there => ⟨member, there⟩) [] here
  | choice options => exact all_choice fun _ member => ⟨member, here⟩
  | repetition inner least most =>
    exact all_repetition cursor least most (fun _ there => ⟨mem_cons_self, there⟩) _ [] here
  | lookahead inner positive =>
    exact ⟨⟨mem_cons_self, here⟩, fun _ _ _ => all_check _ _ _, all_check _ _ _⟩
  | capture | rule | flat => exact ⟨⟨mem_cons_self, here⟩, fun _ _ _ => trivial, trivial⟩

end All

end Script

/-! ## Scripts over related values -/

/-- Two endings differ in their values only, and those are related. -/
inductive Ending.Related {α β : Type} (rel : α → β → Prop) : Ending α → Ending β → Prop where
  | text (start stop : Cursor) : Related rel (.text start stop) (.text start stop)
  | nil (cursor : Cursor) : Related rel (.nil cursor) (.nil cursor)
  | list (start stop : Cursor) {values : List α} {values' : List β}
      (each : Forall₂ rel values values') :
      Related rel (.list start stop values) (.list start stop values')
  | field (label : String) (start stop : Cursor) {value : α} {value' : β}
      (one : rel value value') :
      Related rel (.field label start stop value) (.field label start stop value')
  | same {value : α} {value' : β} (stop : Cursor) (one : rel value value') :
      Related rel (.same value stop) (.same value' stop)
  | failed : Related rel .failed .failed
  | missed (cursor : Cursor) (what : String) : Related rel (.missed cursor what) (.missed cursor what)
  | malformed (pattern : String) : Related rel (.malformed pattern) (.malformed pattern)

/-- Two scripts differ in the values of the parts only, as long as those are related when they are
had. What values are related depends on the state in which they are. -/
inductive Script.Related {σ α β : Type} (later : σ → σ → Prop) (rel : σ → α → β → Prop) :
    σ → Script α → Script β → Prop where
  | done {now : σ} {ending : Ending α} {ending' : Ending β}
      (related : ending.Related (rel now) ending') :
      Related later rel now (.done ending) (.done ending')
  | part {now : σ} {atom : Nat} {cursor : Cursor} {onMatch : α → Cursor → Script α}
      {onFailure : Script α} {onMatch' : β → Cursor → Script β} {onFailure' : Script β}
      (matched : ∀ {next : σ} {value : α} {value' : β} (stop : Cursor), later now next →
        rel next value value' → Related later rel next (onMatch value stop) (onMatch' value' stop))
      (failed : ∀ {next : σ}, later now next → Related later rel next onFailure onFailure') :
      Related later rel now (.part atom cursor onMatch onFailure)
        (.part atom cursor onMatch' onFailure')

namespace Script

variable {σ α β : Type} {later : σ → σ → Prop} {rel : σ → α → β → Prop} {now : σ}

theorem related_piece (start : Cursor) (stop : Option Cursor) (what : String) :
    Related later rel now (piece start stop what) (piece start stop what) := by
  cases stop with
  | none => exact .done (.missed _ _)
  | some stop => exact .done (.text _ _)

theorem related_choice (cursor : Cursor) (options : List Nat) :
    Related later rel now (choice cursor options) (choice cursor options) := by
  induction options generalizing now with
  | nil => exact .done .failed
  | cons option rest ih => exact .part (fun stop _ one => .done (.same stop one)) fun _ => ih

theorem related_check (cursor : Cursor) (passed : Bool) (what : String) :
    Related later rel now (check cursor passed what) (check cursor passed what) := by
  cases passed with
  | false => exact .done (.missed _ _)
  | true => exact .done (.nil _)

variable {values : List α} {values' : List β}

theorem related_endRepetition (start stop : Cursor) (least : Nat)
    (each : Forall₂ (rel now) values values') :
    Related later rel now (endRepetition start stop least values)
      (endRepetition start stop least values') := by
  unfold endRepetition
  rw [each.length_eq]
  split
  · exact .done .failed
  · exact .done (.list _ _ each)

variable (lasts : ∀ ⦃now next : σ⦄ ⦃value : α⦄ ⦃value' : β⦄, later now next →
  rel now value value' → rel next value value')

include lasts

theorem related_sequence (start : Cursor) (parts : List Nat)
    (each : Forall₂ (rel now) values values') (cursor : Cursor) :
    Related later rel now (sequence start parts values cursor)
      (sequence start parts values' cursor) := by
  induction parts generalizing now values values' cursor with
  | nil => exact .done (.list _ _ each)
  | cons part rest ih =>
    refine .part (fun stop past one => ?_) fun _ => .done .failed
    exact ih (.cons one (each.imp fun _ _ one => lasts past one)) stop

theorem related_repetition (start : Cursor) (atom least : Nat) (most : Option Nat) (rounds : Nat)
    (each : Forall₂ (rel now) values values') (cursor : Cursor) :
    Related later rel now (repetition start atom least most rounds values cursor)
      (repetition start atom least most rounds values' cursor) := by
  induction rounds generalizing now values values' cursor with
  | zero => exact related_endRepetition start cursor least each
  | succ rounds ih =>
    rw [repetition, repetition, each.length_eq]
    split
    · refine .part (fun stop past one => ?_) fun past =>
        related_endRepetition _ _ _ (each.imp fun _ _ one => lasts past one)
      have more := Forall₂.cons one (each.imp fun _ _ one => lasts past one)
      split
      · exact related_endRepetition _ _ _ more
      · exact ih more stop
    · exact related_endRepetition _ _ _ each

/-- The scripts of an atom differ in the values of its parts only. -/
theorem related_ofAtom (grammar : Grammar) (cursor : Cursor) (atom : Atom) :
    Related later rel now (ofAtom grammar cursor atom) (ofAtom grammar cursor atom) := by
  cases atom with
  | literal text => exact related_piece _ _ _
  | regex pattern =>
    rw [ofAtom, ofAtom]
    split
    · exact .done (.malformed _)
    · exact related_piece _ _ _
  | sequence parts => exact related_sequence lasts _ _ .nil _
  | choice options => exact related_choice _ _
  | repetition inner least most => exact related_repetition lasts _ _ _ _ _ .nil _
  | capture label inner =>
    exact .part (fun stop _ one => .done (.field _ _ stop one)) fun _ => .done .failed
  | rule inner => exact .part (fun stop _ one => .done (.same stop one)) fun _ => .done .failed
  | lookahead inner positive =>
    exact .part (fun _ _ _ => related_check _ _ _) fun _ => related_check _ _ _
  | flat inner => exact .part (fun stop _ _ => .done (.text _ stop)) fun _ => .done .failed

end Script

/-- The frame in which the parts of an atom are tried. -/
def Frame.inside (frame : Frame) (grammar : Grammar) : Atom → Frame
  | .capture label _ => frame.within (some label)
  | .rule inner => frame.within (grammar.contextName? inner)
  | .lookahead _ _ => { frame with silent := true }
  | _ => frame

/-- By how many levels of rules the parts of an atom lie deeper than the atom. -/
def Atom.levels : Atom → Nat
  | rule _ => 1
  | _ => 0

/-! ## Scripts in plain evaluation -/

namespace Plain

/-- The outcome of an ending and what it reports. -/
def finish (frame : Frame) : Ending Tree → Trace
  | .text start stop => (.matched (.text (start.spanTo stop)) stop, [])
  | .nil cursor => (.matched (.nil cursor.offset) cursor, [])
  | .list start stop trees => listTree start stop trees
  | .field label start stop tree => (.matched (.field (start.spanTo stop) label tree) stop, [])
  | .same tree stop => (.matched tree stop, [])
  | .failed => (.failed, [])
  | .missed cursor what => (.failed, miss frame cursor what)
  | .malformed pattern => (.aborted (.invalidGrammar (.malformedRegex pattern)), [])

/-- Performs a script, given how parts are matched. -/
def perform (visit : Nat → Cursor → Trace) (frame : Frame) : Script Tree → Trace
  | .done ending => finish frame ending
  | .part atom cursor onMatch onFailure =>
    match visit atom cursor with
    | (.matched tree stop, misses) => after misses (perform visit frame (onMatch tree stop))
    | (.failed, misses) => after misses (perform visit frame onFailure)
    | (.aborted error, misses) => (.aborted error, misses)

section Performing

variable (visit : Nat → Cursor → Trace) (frame : Frame)

theorem perform_piece (start : Cursor) (stop : Option Cursor) (what : String) :
    perform visit frame (.piece start stop what) = piece frame start stop what := by
  cases stop <;> rfl

theorem perform_sequence (start : Cursor) (parts : List Nat) (trees : List Tree) (cursor : Cursor) :
    perform visit frame (.sequence start parts trees cursor) =
      sequence visit start parts trees cursor := by
  induction parts generalizing trees cursor with
  | nil => rfl
  | cons atom rest ih =>
    rw [Script.sequence, perform, sequence]
    rcases visit atom cursor with ⟨outcome, misses⟩
    cases outcome with
    | matched tree stop => simp only [ih]
    | failed => simp [perform, finish, after]
    | aborted error => rfl

theorem perform_choice (cursor : Cursor) (options : List Nat) :
    perform visit frame (.choice cursor options) = choice visit cursor options := by
  induction options with
  | nil => rfl
  | cons atom rest ih =>
    rw [Script.choice, perform, choice]
    rcases visit atom cursor with ⟨outcome, misses⟩
    cases outcome with
    | matched tree stop => simp [perform, finish, after]
    | failed => simp only [ih]
    | aborted error => rfl

theorem perform_endRepetition (start stop : Cursor) (least : Nat) (trees : List Tree) :
    perform visit frame (.endRepetition start stop least trees) =
      endRepetition start stop least trees := by
  unfold Script.endRepetition endRepetition
  split <;> rfl

theorem perform_repetition (start : Cursor) (atom least : Nat) (most : Option Nat) (rounds : Nat)
    (trees : List Tree) (cursor : Cursor) :
    perform visit frame (.repetition start atom least most rounds trees cursor) =
      repetition (visit atom) start least most rounds trees cursor := by
  induction rounds generalizing trees cursor with
  | zero => exact perform_endRepetition visit frame start cursor least trees
  | succ rounds ih =>
    rw [Script.repetition, repetition]
    split
    · rw [perform]
      rcases visit atom cursor with ⟨outcome, misses⟩
      cases outcome with
      | matched tree stop =>
        dsimp only
        split
        · rw [perform_endRepetition]
        · rw [ih]
      | failed => simp only [perform_endRepetition]
      | aborted error => rfl
    · exact perform_endRepetition visit frame start cursor least trees

theorem perform_check (cursor : Cursor) (passed : Bool) (what : String) :
    perform visit frame (.check cursor passed what) =
      if passed then (.matched (.nil cursor.offset) cursor, [])
      else (.failed, miss frame cursor what) := by
  cases passed <;> rfl

end Performing

/-- Plain evaluation of an atom performs its script, unless it enters a rule too deep. -/
theorem attempt_eq {grammar : Grammar} (limits : Limits) (visit : Visitor) (depth : Nat)
    (frame : Frame) {index : Nat} {atom : Atom} (cursor : Cursor)
    (found : grammar.atoms[index]? = some atom) :
    attempt grammar limits visit depth frame index cursor =
      if 0 < atom.levels && limits.refusesDepth (depth + atom.levels) then
        (.aborted (.recursionLimit (depth + atom.levels) limits.depth), [])
      else
        perform (visit (depth + atom.levels) (frame.inside grammar atom)) frame
          (.ofAtom grammar cursor atom) := by
  unfold attempt
  rw [found]
  cases atom with
  | literal text => exact (perform_piece _ frame _ _ _).symm
  | regex pattern =>
    simp only [Atom.levels, Script.ofAtom]
    cases Regex.anchored? pattern with
    | none => rfl
    | some machine => exact (perform_piece _ frame _ _ _).symm
  | sequence parts => exact (perform_sequence _ frame _ _ _ _).symm
  | choice options => exact (perform_choice _ frame _ _).symm
  | repetition inner least most => exact (perform_repetition _ frame _ _ _ _ _ _ _).symm
  | capture label inner =>
    simp only [Atom.levels, Script.ofAtom, perform, Frame.inside, Nat.add_zero]
    rcases visit depth (frame.within (some label)) inner cursor with ⟨outcome, misses⟩
    cases outcome <;> simp [mapTree, finish, after]
  | rule inner =>
    simp only [Atom.levels, Script.ofAtom, perform, Frame.inside, Nat.zero_lt_one, decide_true,
      Bool.true_and]
    rcases visit (depth + 1) (frame.within (grammar.contextName? inner)) inner cursor with
      ⟨outcome, misses⟩
    cases outcome <;> simp [finish, after]
  | lookahead inner positive =>
    simp only [Atom.levels, Script.ofAtom, perform, Frame.inside, Nat.add_zero]
    rcases visit depth { frame with silent := true } inner cursor with ⟨outcome, misses⟩
    cases outcome <;> cases positive <;> simp [lookahead, perform_check, after]
  | flat inner =>
    simp only [Atom.levels, Script.ofAtom, perform, Frame.inside, Nat.add_zero]
    rcases visit depth frame inner cursor with ⟨outcome, misses⟩
    cases outcome <;> simp [mapTree, finish, after]

end Plain

/-! ## Scripts in the parser -/

namespace Parser

/-- Something that matches an atom at a place in a frame that is given. -/
abbrev Visitor := Frame → Matcher

def finish (frame : Frame) : Ending Node → ParserState → Answer
  | .text start stop, state => (.matched (.text (.ofSpan (start.spanTo stop))) stop, state)
  | .nil cursor, state => (.matched (.nil cursor.offset.toUInt32) cursor, state)
  | .list start stop nodes, state => storeList start stop nodes state
  | .field label start stop node, state =>
    let (arena, node) := state.arena.pushField label node (start.spanTo stop)
    (.matched node stop, { state with arena })
  | .same node stop, state => (.matched node stop, state)
  | .failed, state => (.failed, state)
  | .missed cursor what, state => (.failed, expect frame cursor what state)
  | .malformed pattern, state => (.aborted (.invalidGrammar (.malformedRegex pattern)), state)

def perform (visit : Visitor) (inner frame : Frame) : Script Node → ParserState → Answer
  | .done ending, state => finish frame ending state
  | .part atom cursor onMatch onFailure, state =>
    match visit inner atom cursor state with
    | (.matched node stop, state) => perform visit inner frame (onMatch node stop) state
    | (.failed, state) => perform visit inner frame onFailure state
    | (.aborted error, state) => (.aborted error, state)

def raise (levels : Nat) (state : ParserState) : ParserState :=
  { state with depth := state.depth + levels }

def lower (levels : Nat) (answer : Answer) : Answer :=
  (answer.1, { answer.2 with depth := answer.2.depth - levels })

@[simp] theorem raise_zero (state : ParserState) : raise 0 state = state := rfl

@[simp] theorem lower_zero (answer : Answer) : lower 0 answer = answer := rfl

/-- Performs the script of an atom in a frame, unless that enters a rule too deep. -/
def attempt (parser : Parser) (visit : Visitor) (frame : Frame) (index : Nat) (cursor : Cursor)
    (state : ParserState) : Answer :=
  match parser.grammar.atoms[index]? with
  | none => (.aborted (.internal s!"Invalid atom ID {index}"), state)
  | some atom =>
    if 0 < atom.levels && parser.limits.refusesDepth (state.depth + atom.levels) then
      (.aborted (.recursionLimit (state.depth + atom.levels) parser.limits.depth),
        raise atom.levels state)
    else
      lower atom.levels (perform visit (frame.inside parser.grammar atom) frame
        (.ofAtom parser.grammar cursor atom) (raise atom.levels state))

theorem attempt_eq (parser : Parser) (visit : Visitor) (frame : Frame) {index : Nat} {atom : Atom}
    (cursor : Cursor) (state : ParserState) (found : parser.grammar.atoms[index]? = some atom) :
    parser.attempt visit frame index cursor state =
      if 0 < atom.levels && parser.limits.refusesDepth (state.depth + atom.levels) then
        (.aborted (.recursionLimit (state.depth + atom.levels) parser.limits.depth),
          raise atom.levels state)
      else
        lower atom.levels (perform visit (frame.inside parser.grammar atom) frame
          (.ofAtom parser.grammar cursor atom) (raise atom.levels state)) := by
  rw [attempt, found]

/-- Matches an atom at a place in a frame. The stack of the state is neither looked at nor changed. -/
def visit (parser : Parser) : Nat → Visitor
  | 0, _, _, _, state => (.aborted .endless, state)
  | fuel + 1, frame, atom, cursor, state =>
    match state.memo[(atom, cursor.offset)]? with
    | some (some (node, stop)) => (.matched node stop, state)
    | some none => (.failed, state)
    | none =>
      let state := { state with trail := (atom, cursor.offset) :: state.trail }
      remember atom cursor (parser.attempt (parser.visit fuel) frame atom cursor state)

/-! ## The stack of the parser -/

/-- An answer in a state with another stack. -/
def restack (context : List String) (silent : Nat) (answer : Answer) : Answer :=
  (answer.1, { answer.2 with context, silent })

/-- What a visitor does depends on no stack, and it leaves the stack as it is. -/
def Stackless (visit : Visitor) : Prop :=
  ∀ context silent frame atom cursor state,
    visit frame atom cursor { state with context, silent } =
      restack context silent (visit frame atom cursor state)

section Stackless

variable {visit : Visitor} (stackless : Stackless visit) (context : List String) (silent : Nat)

theorem restack_finish (frame : Frame) (ending : Ending Node) (state : ParserState) :
    finish frame ending { state with context, silent } =
      restack context silent (finish frame ending state) := by
  cases ending with
  | missed cursor what =>
    rw [finish, finish, expect, expect]
    split <;> rfl
  | _ => rfl

include stackless

theorem restack_perform (inner frame : Frame) (script : Script Node) (state : ParserState) :
    perform visit inner frame script { state with context, silent } =
      restack context silent (perform visit inner frame script state) := by
  induction script generalizing state with
  | done ending => exact restack_finish context silent frame ending state
  | part atom cursor onMatch onFailure matched failed =>
    rw [perform, perform, stackless]
    rcases visit inner atom cursor state with ⟨outcome, after⟩
    cases outcome with
    | matched node stop => exact matched node stop after
    | failed => exact failed after
    | aborted error => rfl

theorem Stackless.attempt (parser : Parser) : Stackless (parser.attempt visit) := by
  intro context silent frame index cursor state
  unfold Parser.attempt
  split
  · rfl
  · dsimp only
    split
    · rfl
    · next atom _ _ =>
      have performed := restack_perform stackless context silent (frame.inside parser.grammar atom)
        frame (.ofAtom parser.grammar cursor atom) (raise atom.levels state)
      exact congrArg (lower atom.levels) performed

/-- The stack is left as it is. -/
theorem Stackless.stack (frame : Frame) (atom : Nat) (cursor : Cursor) (state : ParserState) :
    (visit frame atom cursor state).2.context = state.context ∧
      (visit frame atom cursor state).2.silent = state.silent := by
  have same := stackless state.context state.silent frame atom cursor state
  generalize visit frame atom cursor state = answer at same
  rw [same]
  exact ⟨rfl, rfl⟩

end Stackless

theorem stackless_visit (parser : Parser) (fuel : Nat) : Stackless (parser.visit fuel) := by
  induction fuel with
  | zero => exact fun _ _ _ _ _ _ => rfl
  | succ fuel ih =>
    intro context silent frame atom cursor state
    rw [visit, visit]
    dsimp only
    split
    · rfl
    · rfl
    · have attempted := ih.attempt parser context silent frame atom cursor
        { state with trail := (atom, cursor.offset) :: state.trail }
      rw [attempted]
      rcases parser.attempt _ _ _ _ _ with ⟨outcome, after⟩
      cases outcome <;> rfl

section Following

variable {tries : Matcher} {visit : Visitor} {frame : Frame} {state : ParserState}

theorem Stackless.frame_eq (stackless : Stackless visit) (frame : Frame) (atom : Nat)
    (cursor : Cursor) (state : ParserState) :
    (visit frame atom cursor state).2.frame = state.frame := by
  obtain ⟨context, silent⟩ := stackless.stack frame atom cursor state
  rw [ParserState.frame, context, silent]
  rfl

theorem piece_eq (start : Cursor) (stop : Option Cursor) (what : String) (state : ParserState) :
    piece start stop what state =
      perform visit frame state.frame (.piece start stop what) state := by
  cases stop <;> rfl

theorem endRepetition_eq (start stop : Cursor) (least : Nat) (nodes : List Node)
    (state : ParserState) : endRepetition start stop least nodes state =
      perform visit frame frame (.endRepetition start stop least nodes) state := by
  unfold Script.endRepetition endRepetition
  split <;> rfl

variable (stackless : Stackless visit)
  (follows : ∀ atom cursor state, tries atom cursor state = visit state.frame atom cursor state)

include stackless follows

/-- Below a label or rule, the stack shows the frame that is within it. -/
theorem within_eq (name : Option String) (atom : Nat) (cursor : Cursor) (state : ParserState) :
    within tries name atom cursor state = visit (state.frame.within name) atom cursor state := by
  cases name with
  | none => exact follows atom cursor state
  | some name =>
    have moved := stackless (name :: state.context) state.silent (state.frame.within (some name))
      atom cursor state
    obtain ⟨context, silent⟩ := stackless.stack (state.frame.within (some name)) atom cursor state
    have pushed := (follows atom cursor { state with context := name :: state.context }).trans moved
    rw [within, pushed]
    simp only [restack, tail_cons, ← context, ← silent]

theorem ahead_eq (atom : Nat) (cursor : Cursor) (state : ParserState) :
    ahead tries atom cursor state = visit { state.frame with silent := true } atom cursor state := by
  have moved := stackless state.context (state.silent + 1) { state.frame with silent := true }
    atom cursor state
  obtain ⟨context, silent⟩ := stackless.stack { state.frame with silent := true } atom cursor state
  have counted := (follows atom cursor { state with silent := state.silent + 1 }).trans moved
  rw [ahead, counted]
  simp only [restack, Nat.add_sub_cancel, ← context, ← silent]

theorem sequence_eq (start : Cursor) (parts : List Nat) (nodes : List Node) (cursor : Cursor)
    (here : state.frame = frame) :
    sequence tries start parts nodes cursor state =
      perform visit frame frame (.sequence start parts nodes cursor) state := by
  induction parts generalizing nodes cursor state with
  | nil => rfl
  | cons atom rest ih =>
    have after := (stackless.frame_eq frame atom cursor state).trans here
    rw [Script.sequence, perform, sequence, follows, here]
    generalize visit frame atom cursor state = answer at after ⊢
    obtain ⟨outcome, state⟩ := answer
    cases outcome with
    | matched node stop => exact ih (node :: nodes) stop after
    | failed => rfl
    | aborted error => rfl

theorem choice_eq (cursor : Cursor) (options : List Nat) (here : state.frame = frame) :
    choice tries cursor options state =
      perform visit frame frame (.choice cursor options) state := by
  induction options generalizing state with
  | nil => rfl
  | cons atom rest ih =>
    have after := (stackless.frame_eq frame atom cursor state).trans here
    rw [Script.choice, perform, choice, follows, here]
    generalize visit frame atom cursor state = answer at after ⊢
    obtain ⟨outcome, state⟩ := answer
    cases outcome with
    | matched node stop => rfl
    | failed => exact ih after
    | aborted error => rfl

theorem repetition_eq (start : Cursor) (atom least : Nat) (most : Option Nat) (rounds : Nat)
    (nodes : List Node) (cursor : Cursor) (here : state.frame = frame) :
    repetition tries start atom least most rounds nodes cursor state =
      perform visit frame frame (.repetition start atom least most rounds nodes cursor) state := by
  induction rounds generalizing nodes cursor state with
  | zero => exact endRepetition_eq start cursor least nodes state
  | succ rounds ih =>
    have after := (stackless.frame_eq frame atom cursor state).trans here
    rw [Script.repetition, repetition]
    split
    · rw [perform, follows, here]
      generalize visit frame atom cursor state = answer at after ⊢
      obtain ⟨outcome, state⟩ := answer
      cases outcome with
      | matched node stop =>
        dsimp only
        split
        · exact endRepetition_eq start cursor least _ state
        · exact ih (node :: nodes) stop after
      | failed => exact endRepetition_eq start cursor least nodes state
      | aborted error => rfl
    · exact endRepetition_eq start cursor least nodes state

/-- Matching an atom performs its script in the frame that the stack shows. -/
theorem matchAtom_eq (parser : Parser) (index : Nat) (cursor : Cursor) (state : ParserState) :
    parser.matchAtom tries index cursor state =
      parser.attempt visit state.frame index cursor state := by
  unfold matchAtom attempt
  cases parser.grammar.atoms[index]? with
  | none => rfl
  | some atom =>
    cases atom with
    | literal text => exact piece_eq _ _ _ state
    | regex pattern =>
      simp only [Atom.levels, Script.ofAtom]
      cases Regex.anchored? pattern with
      | none => rfl
      | some machine => exact piece_eq _ _ _ state
    | sequence parts => exact sequence_eq stackless follows _ _ _ _ rfl
    | choice options => exact choice_eq stackless follows _ _ rfl
    | repetition inner least most => exact repetition_eq stackless follows _ _ _ _ _ _ _ rfl
    | capture label inner =>
      simp only [Atom.levels, Script.ofAtom, perform, Frame.inside, raise_zero, lower_zero, capture,
        within_eq stackless follows]
      rcases visit (state.frame.within (some label)) inner cursor state with ⟨outcome, after⟩
      cases outcome <;> rfl
    | rule inner =>
      have entered : within tries (parser.grammar.contextName? inner) inner cursor (raise 1 state) =
          visit (state.frame.within (parser.grammar.contextName? inner)) inner cursor
            (raise 1 state) := within_eq stackless follows _ inner cursor (raise 1 state)
      rw [raise] at entered
      simp only [Atom.levels, Script.ofAtom, perform, Frame.inside, enterRule, raise,
        Nat.zero_lt_one, decide_true, Bool.true_and, entered]
      rcases visit (state.frame.within (parser.grammar.contextName? inner)) inner cursor
        { state with depth := state.depth + 1 } with ⟨outcome, after⟩
      cases outcome <;> rfl
    | lookahead inner positive =>
      have same := stackless.frame_eq { state.frame with silent := true } inner cursor state
      simp only [Atom.levels, Script.ofAtom, perform, Frame.inside, raise_zero, lower_zero,
        lookahead, ahead_eq stackless follows]
      generalize visit { state.frame with silent := true } inner cursor state = answer at same ⊢
      obtain ⟨outcome, after⟩ := answer
      rw [← same]
      cases outcome <;> cases positive <;> rfl
    | flat inner =>
      simp only [Atom.levels, Script.ofAtom, perform, Frame.inside, raise_zero, lower_zero, flatten,
        follows]
      rcases visit state.frame inner cursor state with ⟨outcome, after⟩
      cases outcome <;> rfl

end Following

/-- Trying an atom visits it in the frame that the stack shows. -/
theorem tryAtom_eq (parser : Parser) (fuel atom : Nat) (cursor : Cursor) (state : ParserState) :
    parser.tryAtom fuel atom cursor state = parser.visit fuel state.frame atom cursor state := by
  induction fuel generalizing atom cursor state with
  | zero => rfl
  | succ fuel ih =>
    have attempted := matchAtom_eq (stackless_visit parser fuel) ih parser atom cursor
      { state with trail := (atom, cursor.offset) :: state.trail }
    rw [tryAtom, visit]
    dsimp only
    rw [attempted]
    rfl

theorem within_tryAtom (parser : Parser) (fuel : Nat) (name : Option String) (atom : Nat)
    (cursor : Cursor) (state : ParserState) :
    within (parser.tryAtom fuel) name atom cursor state =
      parser.visit fuel (state.frame.within name) atom cursor state :=
  within_eq (stackless_visit parser fuel) (tryAtom_eq parser fuel) name atom cursor state

/-- What was put on the stack is taken off again, and every lookahead that was counted is counted
off, however a try ends. -/
theorem stack_tryAtom (parser : Parser) (fuel atom : Nat) (cursor : Cursor) (state : ParserState) :
    (parser.tryAtom fuel atom cursor state).2.context = state.context ∧
      (parser.tryAtom fuel atom cursor state).2.silent = state.silent := by
  rw [tryAtom_eq]
  exact (stackless_visit parser fuel).stack state.frame atom cursor state

end Parser

end Reflow
