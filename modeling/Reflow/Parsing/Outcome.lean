import Reflow.Parsing.Error
import Reflow.Regex.Pattern

/-!
# Matching at a place

A cursor is a place in the input. Matching an atom there succeeds with a value and the place behind
the match, fails, or is aborted by an error.
-/

namespace Reflow

open Text

structure Cursor where
  /-- Bytes before the place. -/
  offset : Nat
  /-- The input from the place on. -/
  rest : Text
  deriving DecidableEq, Repr

/-- The place behind a match, given the input it consumed and the input it left. -/
def Cursor.advance (cursor : Cursor) (consumed rest : Text) : Cursor :=
  ⟨cursor.offset + byteLength consumed, rest⟩

def Cursor.spanTo (start stop : Cursor) : Span := ⟨start.offset, stop.offset⟩

inductive Outcome (α : Type) where
  | matched (value : α) (stop : Cursor)
  | failed
  | aborted (error : ParseError)
  deriving Repr

/-- What follows a text at the front of another. -/
def stripFront? : Text → Text → Option Text
  | [], rest => some rest
  | _ :: _, [] => none
  | a :: front, b :: rest => if a = b then stripFront? front rest else none

def matchLiteral (text : String) (cursor : Cursor) : Option Cursor :=
  (stripFront? text.toList cursor.rest).map (cursor.advance text.toList)

def matchRegex (machine : Machine) (cursor : Cursor) : Option Cursor :=
  (machine.find cursor.rest).map fun found =>
    cursor.advance (found.before ++ found.matched) found.after

/-- Where an attempt is made: the innermost label or rule around it, and whether a lookahead keeps
it from being reported. -/
structure Frame where
  context : Option String := none
  silent : Bool := false
  deriving DecidableEq, Repr

def Frame.within (frame : Frame) : Option String → Frame
  | some name => { frame with context := some name }
  | none => frame

/-- What was expected, with the innermost label or rule around it. -/
def Frame.expectation (frame : Frame) (what : String) : String :=
  match frame.context with
  | some name => what ++ " in " ++ name
  | none => what

/-- What a failed lookahead expected. -/
def lookaheadExpectation (atom : Option Atom) (positive : Bool) : String :=
  let inner := (atom.map Atom.describe).getD ""
  if positive then inner else "anything but " ++ inner

/-- Whether a repetition may go on after a number of rounds. -/
def belowMost (most : Option Nat) (count : Nat) : Bool :=
  match most with
  | some most => count < most
  | none => true

end Reflow
