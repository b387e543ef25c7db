import Reflow.Text.Blank
import Reflow.Text.Width

/-!
# Filling lines with words

A text is split into words and the words are filled into lines, as many on each line as fit. A
sticky word may not begin a line, so it forms a unit with the word before it. A unit is never
broken; one that is wider than a line gets a line to itself.
-/

namespace Reflow.Layout

open Text

/-- A test for words that may not begin a line. -/
abbrev Sticky := Text → Bool

def noSticky : Sticky := fun _ => false

/-- Words with one space between neighbours. -/
def joinWords : List Text → Text
  | [] => []
  | [word] => word
  | word :: rest => word ++ ' ' :: joinWords rest

/-- Puts a word before some units; it takes in the first of them if that one begins with a sticky
word. -/
def consUnit (sticky : Sticky) (word : Text) :
    List (List Text) → List (List Text)
  | (next :: glued) :: units =>
    if sticky next then (word :: next :: glued) :: units else [word] :: (next :: glued) :: units
  | units => [word] :: units

/-- Groups words into units: a word and the sticky words after it. -/
def units (sticky : Sticky) (words : List Text) : List (List Text) :=
  words.foldr (consUnit sticky) []

/-- Columns of a unit, its inner spaces included. -/
def unitWidth (unit : List Text) : Nat := textWidth (joinWords unit)

/-- Fills units into lines after a line that already holds some words and has used some columns. The
first budget is for that line and `later` for the lines below it. -/
def fill (later : Nat) :
    Nat → List Text → Nat → List (List Text) → List (List Text)
  | _, line, _, [] => [line]
  | budget, line, used, unit :: rest =>
    let width := unitWidth unit
    if used + 1 + width ≤ budget then fill later budget (line ++ unit) (used + 1 + width) rest
    else line :: fill later later unit width rest

structure Wrap where
  /-- Columns of a line, indents included. -/
  width : Nat
  /-- Columns taken by something before the first line. -/
  initial : Nat := 0
  /-- Columns taken by something before every later line. -/
  later : Nat := 0
  /-- Words that may not begin a line. -/
  sticky : Sticky := noSticky

/-- The lines of some words, as lists of words. -/
def Wrap.fillWords (wrap : Wrap) (words : List Text) : List (List Text) :=
  match units wrap.sticky words with
  | [] => []
  | unit :: rest =>
    fill (wrap.width - wrap.later) (wrap.width - wrap.initial) unit (unitWidth unit) rest

/-- The lines of a text, without indents and line breaks. -/
def Wrap.lines (wrap : Wrap) (text : Text) : List Text :=
  (wrap.fillWords (words text)).map joinWords

end Reflow.Layout
