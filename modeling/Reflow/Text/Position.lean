import Reflow.Text.Offset

/-!
# Lines and positions

The lines of a text, each with its line break, and the line and column of a byte offset. Lines and
columns count from one, and columns count characters.
-/

namespace Reflow.Text

/-- Puts a character at the front of the first line. -/
def consLine (c : Char) : List Text → List Text
  | [] => [[c]]
  | line :: lines => (c :: line) :: lines

/-- The lines of a text, each with its line break; only the last one may lack it. -/
def lines : Text → List Text
  | [] => []
  | c :: rest => if c = '\n' then ['\n'] :: lines rest else consLine c (lines rest)

/-- The spans of adjacent pieces of a text, from a given offset on. -/
def spansFrom (start : Nat) : List Text → List Span
  | [] => []
  | piece :: pieces =>
    let stop := start + byteLength piece
    ⟨start, stop⟩ :: spansFrom stop pieces

def lineSpans (text : Text) : List Span := spansFrom 0 (lines text)

/-- The index of the line that holds an offset; an offset at the end or beyond counts to the
last. -/
def lineIndex (spans : List Span) (offset : Nat) : Option Nat :=
  match spans.findIdx? (·.contains offset) with
  | some index => some index
  | none =>
    match spans.getLast? with
    | some last => if last.stop ≤ offset then some (spans.length - 1) else none
    | none => none

structure Position where
  offset : Nat
  line : Nat
  column : Nat
  deriving DecidableEq, Repr

/-- The place of an offset, moved back to the nearest character boundary of the text. -/
def Position.ofOffset (text : Text) (offset : Nat) : Position :=
  let before := takeBytes offset text
  { offset := byteLength before
    line := before.count '\n' + 1
    column := (before.reverse.takeWhile (· != '\n')).length + 1 }

def Position.describe (position : Position) : String :=
  s!"line {position.line}, column {position.column}"

end Reflow.Text
