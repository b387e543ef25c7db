import Reflow.Parsing.Limits
import Reflow.Parsing.Outcome
import Reflow.Parsing.Tree
import Std.Data.HashMap

/-!
# Packrat parsing

Grammars are matched by recursive descent with a memo: the outcome of an atom at a place is computed
once and looked up afterwards, unless it was aborted. The parser also keeps the furthest place where
something was expected and not found, which is what it reports when the input does not match. The
labels and rules around a place are on a stack, and lookaheads are counted; both are as before when
an atom has been tried (`Parser.tryAtom_eq`).

A parser can be run several times on its input. Its state goes from one run to the next.
-/

namespace Reflow

open Text

/-- The furthest place where something was expected, and what was expected there. -/
structure Furthest where
  position : Nat := 0
  expected : List String := []
  deriving DecidableEq, Repr

def maxExpectations : Nat := 8

/-- Takes note of an expectation that was not met. -/
def Furthest.note (furthest : Furthest) (position : Nat) (expectation : String) : Furthest :=
  if position < furthest.position then furthest
  else
    let kept := if furthest.position < position then [] else furthest.expected
    if maxExpectations ≤ kept.length || kept.contains expectation then ⟨position, kept⟩
    else ⟨position, kept ++ [expectation]⟩

/-- A grammar to match and the input to match it on. -/
structure Parser where
  grammar : Grammar
  limits : Limits := {}
  input : Text

/-- What a parser keeps between runs. -/
structure ParserState where
  /-- Outcomes by atom and offset; nothing stands for a failure. -/
  memo : Std.HashMap (Nat × Nat) (Option (Node × Cursor)) := {}
  arena : Arena := {}
  /-- The atoms matched without the memo and the offsets where they were, last one first. -/
  trail : List (Nat × Nat) := []
  /-- Nesting depth of rules. -/
  depth : Nat := 0
  furthest : Furthest := {}
  /-- The labels and rules around the place that is tried, innermost first. -/
  context : List String := []
  /-- The number of lookaheads around it. -/
  silent : Nat := 0

def ParserState.frame (state : ParserState) : Frame := ⟨state.context.head?, 0 < state.silent⟩

namespace Parser

abbrev Answer := Outcome Node × ParserState

/-- Something that matches an atom at a place. -/
abbrev Matcher := Nat → Cursor → ParserState → Answer

/-- Takes note of an expectation, unless a lookahead keeps it from being reported. -/
def expect (frame : Frame) (cursor : Cursor) (what : String) (state : ParserState) : ParserState :=
  if frame.silent then state
  else { state with furthest := state.furthest.note cursor.offset (frame.expectation what) }

/-- A piece of the input, or a failure that was expected to be something. -/
def piece (start : Cursor) (stop : Option Cursor) (what : String) (state : ParserState) : Answer :=
  match stop with
  | some stop => (.matched (.text (.ofSpan (start.spanTo stop))) stop, state)
  | none => (.failed, expect state.frame start what state)

def storeList (start stop : Cursor) (nodes : List Node) (state : ParserState) : Answer :=
  let (arena, node) := state.arena.pushList nodes.reverse (start.spanTo stop)
  (.matched node stop, { state with arena })

def sequence (visit : Matcher) (start : Cursor) :
    List Nat → List Node → Cursor → ParserState → Answer
  | [], nodes, cursor, state => storeList start cursor nodes state
  | atom :: rest, nodes, cursor, state =>
    match visit atom cursor state with
    | (.matched node stop, state) => sequence visit start rest (node :: nodes) stop state
    | (.failed, state) => (.failed, state)
    | (.aborted error, state) => (.aborted error, state)

def choice (visit : Matcher) (cursor : Cursor) : List Nat → ParserState → Answer
  | [], state => (.failed, state)
  | atom :: rest, state =>
    match visit atom cursor state with
    | (.failed, state) => choice visit cursor rest state
    | answer => answer

def endRepetition (start stop : Cursor) (least : Nat) (nodes : List Node) (state : ParserState) :
    Answer :=
  if nodes.length < least then (.failed, state) else storeList start stop nodes state

/-- Matches an atom again and again. A round that consumes nothing is the last one; the number of
rounds is bounded by the input that is left. -/
def repetition (visit : Matcher) (start : Cursor) (atom least : Nat) (most : Option Nat) :
    Nat → List Node → Cursor → ParserState → Answer
  | 0, nodes, cursor, state => endRepetition start cursor least nodes state
  | rounds + 1, nodes, cursor, state =>
    if belowMost most nodes.length then
      match visit atom cursor state with
      | (.matched node stop, state) =>
        if stop.offset = cursor.offset then
          endRepetition start cursor least (node :: nodes) state
        else repetition visit start atom least most rounds (node :: nodes) stop state
      | (.failed, state) => endRepetition start cursor least nodes state
      | (.aborted error, state) => (.aborted error, state)
    else endRepetition start cursor least nodes state

/-- Matches an atom below a label or rule, which is put on the stack for as long. -/
def within (visit : Matcher) (name : Option String) (atom : Nat) (cursor : Cursor)
    (state : ParserState) : Answer :=
  match name with
  | none => visit atom cursor state
  | some name =>
    let (outcome, state) := visit atom cursor { state with context := name :: state.context }
    (outcome, { state with context := state.context.tail })

def enterRule (parser : Parser) (visit : Matcher) (atom : Nat) (cursor : Cursor)
    (state : ParserState) : Answer :=
  let depth := state.depth + 1
  let state := { state with depth }
  if parser.limits.refusesDepth depth then
    (.aborted (.recursionLimit depth parser.limits.depth), state)
  else
    let (outcome, state) := within visit (parser.grammar.contextName? atom) atom cursor state
    (outcome, { state with depth := state.depth - 1 })

def capture (visit : Matcher) (label : String) (atom : Nat) (cursor : Cursor)
    (state : ParserState) : Answer :=
  match within visit (some label) atom cursor state with
  | (.matched node stop, state) =>
    let (arena, node) := state.arena.pushField label node (cursor.spanTo stop)
    (.matched node stop, { state with arena })
  | answer => answer

/-- Matches an atom ahead, where it is counted for as long that nothing is to be reported. -/
def ahead (visit : Matcher) (atom : Nat) (cursor : Cursor) (state : ParserState) : Answer :=
  let (outcome, state) := visit atom cursor { state with silent := state.silent + 1 }
  (outcome, { state with silent := state.silent - 1 })

def lookahead (parser : Parser) (visit : Matcher) (atom : Nat) (positive : Bool)
    (cursor : Cursor) (state : ParserState) : Answer :=
  let settle (found : Bool) (state : ParserState) : Answer :=
    if found = positive then (.matched (.nil cursor.offset.toUInt32) cursor, state)
    else
      let what := lookaheadExpectation parser.grammar.atoms[atom]? positive
      (.failed, expect state.frame cursor what state)
  match ahead visit atom cursor state with
  | (.matched _ _, state) => settle true state
  | (.failed, state) => settle false state
  | (.aborted error, state) => (.aborted error, state)

/-- Keeps only the extent of an atom's match. -/
def flatten (visit : Matcher) (atom : Nat) (cursor : Cursor) (state : ParserState) : Answer :=
  match visit atom cursor state with
  | (.matched _ stop, state) => (.matched (.text (.ofSpan (cursor.spanTo stop))) stop, state)
  | answer => answer

/-- Matches an atom whose outcome is not in the memo, given how its parts are matched. -/
def matchAtom (parser : Parser) (visit : Matcher) (atom : Nat) (cursor : Cursor)
    (state : ParserState) : Answer :=
  match parser.grammar.atoms[atom]? with
  | none => (.aborted (.internal s!"Invalid atom ID {atom}"), state)
  | some found =>
    match found with
    | .literal text => piece cursor (matchLiteral text cursor) found.describe state
    | .regex pattern =>
      match Regex.anchored? pattern with
      | none => (.aborted (.invalidGrammar (.malformedRegex pattern)), state)
      | some machine => piece cursor (matchRegex machine cursor) found.describe state
    | .sequence parts => sequence visit cursor parts [] cursor state
    | .choice options => choice visit cursor options state
    | .repetition atom least most =>
      repetition visit cursor atom least most (cursor.rest.length + 1) [] cursor state
    | .capture label atom => capture visit label atom cursor state
    | .rule atom => parser.enterRule visit atom cursor state
    | .lookahead atom positive => parser.lookahead visit atom positive cursor state
    | .flat atom => flatten visit atom cursor state

/-- Puts an outcome in the memo, unless it was aborted. -/
def remember (atom : Nat) (cursor : Cursor) : Answer → Answer
  | (.matched node stop, state) =>
    (.matched node stop,
      { state with memo := state.memo.insert (atom, cursor.offset) (some (node, stop)) })
  | (.failed, state) =>
    (.failed, { state with memo := state.memo.insert (atom, cursor.offset) none })
  | (.aborted error, state) => (.aborted error, state)

/-- Matches an atom at a place, to a bounded depth of recursion. -/
def tryAtom (parser : Parser) : Nat → Matcher
  | 0, _, _, state => (.aborted .endless, state)
  | fuel + 1, atom, cursor, state =>
    match state.memo[(atom, cursor.offset)]? with
    | some (some (node, stop)) => (.matched node stop, state)
    | some none => (.failed, state)
    | none =>
      let state := { state with trail := (atom, cursor.offset) :: state.trail }
      remember atom cursor (parser.matchAtom (parser.tryAtom fuel) atom cursor state)

/-- A depth of recursion that is never reached unless an atom comes back to itself at the same place
and at the same nesting depth of rules. -/
def fuel (parser : Parser) : Nat :=
  (parser.limits.depth + 1) * (parser.grammar.atoms.size * (parser.input.length + 1) + 1)

/-- The error of a parse that stopped at an offset. -/
def unmatched (state : ParserState) (stop : Nat) : ParseError :=
  if state.furthest.expected.isEmpty || state.furthest.position < stop then
    .unmatched stop "end of input"
  else .unmatched state.furthest.position (" or ".intercalate state.furthest.expected)

/-- Matches the root at the front of the input. -/
def parseFront (parser : Parser) (state : ParserState) :
    Except ParseError (Node × Cursor) × ParserState :=
  let size := byteLength parser.input
  if parser.limits.refusesSize size then
    (.error (.inputTooLarge size parser.limits.inputSize), state)
  else
    let root := parser.grammar.root
    let name := parser.grammar.contextName? root
    match within (parser.tryAtom parser.fuel) name root ⟨0, parser.input⟩ state with
    | (.matched node stop, state) => (.ok (node, stop), state)
    | (.failed, state) => (.error (unmatched state 0), state)
    | (.aborted error, state) => (.error error, state)

/-- Matches the root on the whole input. -/
def parse (parser : Parser) (state : ParserState) : Except ParseError Node × ParserState :=
  match parser.parseFront state with
  | (.ok (node, stop), state) =>
    if stop.offset = byteLength parser.input then (.ok node, state)
    else (.error (unmatched state stop.offset), state)
  | (.error error, state) => (.error error, state)

end Parser

def Grammar.parse (grammar : Grammar) (input : Text) : Except ParseError Tree :=
  match Parser.parse { grammar, input } {} with
  | (.ok node, state) => .ok (state.arena.tree node)
  | (.error error, _) => .error error

end Reflow
