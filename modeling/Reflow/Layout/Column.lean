import Reflow.Text.Width

/-!
# Columns

Columns count from zero. A tab moves to the next tab stop and every other character takes the width
it has by itself. Where columns are held in words of 64 bits, one that does not fit loses its high
part. Words agree with columns that are not bounded as long as these fit, so what is laid out is
told with the latter.
-/

namespace Reflow.Layout

open Text

/-- The column after a character. A tab size of zero counts as one. -/
def step (tabSize column : Nat) (c : Char) : Nat :=
  let tabSize := max tabSize 1
  if c = '\t' then column + tabSize - column % tabSize else column + charWidth c

/-- The column reached by writing a text from a starting column. -/
def advance (start : Nat) (text : Text) (tabSize : Nat) : Nat :=
  text.foldl (step tabSize) start

def visualWidth (text : Text) (tabSize : Nat) : Nat := advance 0 text tabSize

def spaces (count : Nat) : Text := List.replicate count ' '

/-- The column after a character, in a word. -/
def wordStep (tabSize column : UInt64) (c : Char) : UInt64 :=
  let tabSize := max tabSize 1
  if c = '\t' then column + tabSize - column % tabSize else column + .ofNat (charWidth c)

/-- The column reached by writing a text from a starting column, in a word. -/
def wordAdvance (start : UInt64) (text : Text) (tabSize : UInt64) : UInt64 :=
  text.foldl (wordStep tabSize) start

/-- Tabs and spaces that lead from one column to another: as many tabs as there are tab stops on the
way, then spaces. Nothing in it can outgrow a word. -/
def indentation (start stop tabSize : Nat) : Text :=
  let tabSize := max tabSize 1
  let tabs := stop / tabSize - start / tabSize
  if 0 < tabs then List.replicate tabs '\t' ++ spaces (stop % tabSize)
  else spaces (stop - start)

end Reflow.Layout
