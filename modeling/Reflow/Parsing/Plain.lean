import Reflow.Parsing.Limits
import Reflow.Parsing.Outcome
import Reflow.Parsing.Tree

/-!
# Plain parsing

Recursive descent without a memo: the meaning of a grammar. An atom is matched by matching its
parts, as often as that takes, and the outcome depends on nothing but the atom, the place and the
nesting depth of rules. Beside the outcome, every expectation that is not met outside a lookahead is
listed, in the order of evaluation.
-/

namespace Reflow

open Text

/-- An expectation that was not met. -/
structure Miss where
  position : Nat
  expectation : String
  deriving DecidableEq, Repr

namespace Plain

/-- The outcome of an attempt and the expectations that were not met on the way. -/
abbrev Trace := Outcome Tree × List Miss

abbrev Visitor := Nat → Frame → Nat → Cursor → Trace

/-- The report of an expectation, unless a lookahead keeps it from being reported. -/
def miss (frame : Frame) (cursor : Cursor) (what : String) : List Miss :=
  if frame.silent then [] else [⟨cursor.offset, frame.expectation what⟩]

/-- Puts reports before those of a trace. -/
def after (misses : List Miss) (trace : Trace) : Trace := (trace.1, misses ++ trace.2)

def piece (frame : Frame) (start : Cursor) (stop : Option Cursor) (what : String) : Trace :=
  match stop with
  | some stop => (.matched (.text (start.spanTo stop)) stop, [])
  | none => (.failed, miss frame start what)

def listTree (start stop : Cursor) (trees : List Tree) : Trace :=
  (.matched (.list (start.spanTo stop) trees.reverse) stop, [])

def sequence (visit : Nat → Cursor → Trace) (start : Cursor) :
    List Nat → List Tree → Cursor → Trace
  | [], trees, cursor => listTree start cursor trees
  | atom :: rest, trees, cursor =>
    match visit atom cursor with
    | (.matched tree stop, misses) => after misses (sequence visit start rest (tree :: trees) stop)
    | (.failed, misses) => (.failed, misses)
    | (.aborted error, misses) => (.aborted error, misses)

def choice (visit : Nat → Cursor → Trace) (cursor : Cursor) : List Nat → Trace
  | [] => (.failed, [])
  | atom :: rest =>
    match visit atom cursor with
    | (.failed, misses) => after misses (choice visit cursor rest)
    | trace => trace

def endRepetition (start stop : Cursor) (least : Nat) (trees : List Tree) : Trace :=
  if trees.length < least then (.failed, []) else listTree start stop trees

/-- Matches an atom again and again. A round that consumes nothing is the last one. -/
def repetition (visit : Cursor → Trace) (start : Cursor) (least : Nat) (most : Option Nat) :
    Nat → List Tree → Cursor → Trace
  | 0, trees, cursor => endRepetition start cursor least trees
  | rounds + 1, trees, cursor =>
    if belowMost most trees.length then
      match visit cursor with
      | (.matched tree stop, misses) =>
        if stop.offset = cursor.offset then
          after misses (endRepetition start cursor least (tree :: trees))
        else after misses (repetition visit start least most rounds (tree :: trees) stop)
      | (.failed, misses) => after misses (endRepetition start cursor least trees)
      | (.aborted error, misses) => (.aborted error, misses)
    else endRepetition start cursor least trees

def mapTree (change : Tree → Cursor → Tree) : Trace → Trace
  | (.matched tree stop, misses) => (.matched (change tree stop) stop, misses)
  | trace => trace

def lookahead (frame : Frame) (cursor : Cursor) (positive : Bool) (what : String) : Trace → Trace
  | (.aborted error, misses) => (.aborted error, misses)
  | (outcome, misses) =>
    let found := match outcome with
      | .matched _ _ => true
      | _ => false
    if found = positive then (.matched (.nil cursor.offset) cursor, misses)
    else (.failed, misses ++ miss frame cursor what)

def attempt (grammar : Grammar) (limits : Limits) (visit : Visitor) (depth : Nat) (frame : Frame)
    (atom : Nat) (cursor : Cursor) : Trace :=
  match grammar.atoms[atom]? with
  | none => (.aborted (.internal s!"Invalid atom ID {atom}"), [])
  | some found =>
    match found with
    | .literal text => piece frame cursor (matchLiteral text cursor) found.describe
    | .regex pattern =>
      match Regex.anchored? pattern with
      | none => (.aborted (.invalidGrammar (.malformedRegex pattern)), [])
      | some machine => piece frame cursor (matchRegex machine cursor) found.describe
    | .sequence parts => sequence (visit depth frame) cursor parts [] cursor
    | .choice options => choice (visit depth frame) cursor options
    | .repetition atom least most =>
      repetition (visit depth frame atom) cursor least most (cursor.rest.length + 1) [] cursor
    | .capture label atom =>
      mapTree (fun tree stop => .field (cursor.spanTo stop) label tree)
        (visit depth (frame.within (some label)) atom cursor)
    | .rule atom =>
      if limits.refusesDepth (depth + 1) then
        (.aborted (.recursionLimit (depth + 1) limits.depth), [])
      else visit (depth + 1) (frame.within (grammar.contextName? atom)) atom cursor
    | .lookahead atom positive =>
      lookahead frame cursor positive (lookaheadExpectation grammar.atoms[atom]? positive)
        (visit depth { frame with silent := true } atom cursor)
    | .flat atom =>
      mapTree (fun _ stop => .text (cursor.spanTo stop)) (visit depth frame atom cursor)

def visit (grammar : Grammar) (limits : Limits) : Nat → Visitor
  | 0, _, _, _, _ => (.aborted .endless, [])
  | fuel + 1, depth, frame, atom, cursor =>
    attempt grammar limits (visit grammar limits fuel) depth frame atom cursor

end Plain

end Reflow
