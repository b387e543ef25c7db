import Reflow.Style
import Reflow.Layout.Column
import Reflow.Layout.Wrap

/-!
# Laying out one paragraph

Three ways to write a text as complete lines, each ending in a line break. The budget of every line
leaves room for all that is written before the text: the line's lead, a header, and indentation.
-/

namespace Reflow.Layout

open Text

/-- The columns shared by a run of parameters. -/
structure Columns where
  /-- Where names start, counted from the marker. -/
  nameColumn : Nat := 0
  /-- Where descriptions start, counted from the marker. -/
  textColumn : Nat := 0
  deriving DecidableEq, Repr

/-- What a paragraph needs besides its own text. -/
structure Context where
  style : Style
  sticky : Sticky := noSticky

/-- The words at the front of a text that may not begin a line, and the rest with single spaces. -/
def Context.splitStickyLead (ctx : Context) (text : Text) : List Text × Text :=
  let all := words text
  (all.takeWhile ctx.sticky, joinWords (all.dropWhile ctx.sticky))

def padTo (text : Text) (column : Nat) : Text :=
  text ++ spaces (column - textWidth text)

def parameterHeader (marker name : Text) (columns : Columns) : Text :=
  padTo (padTo (marker ++ [' ']) columns.nameColumn ++ name ++ [' ']) columns.textColumn

def leadLines (lead : Text) (lines : List Text) : Text :=
  lines.flatMap fun line => lead ++ line ++ ['\n']

/-- How words are filled into lines that stand behind one lead. -/
def Context.wrapBehind (ctx : Context) (lead : Text) : Wrap :=
  { width := ctx.style.width - visualWidth lead ctx.style.tabSize, sticky := ctx.sticky }

/-- How words are filled into lines behind a bullet. The tab before the later lines is budgeted as a
full tab stop. -/
def Context.wrapBullet (ctx : Context) (lead start : Text) : Wrap :=
  { width := ctx.style.width - visualWidth lead ctx.style.tabSize
    initial := textWidth start
    later := ctx.style.tabSize
    sticky := ctx.sticky }

/-- A header behind a lead of some width, then the text aligned at the column where it starts.
Without text the header stands alone, with no blanks after it. -/
def contiguousAt (ctx : Context) (leadWidth textStart : Nat) (lead header text : Text) : Text :=
  let wrap : Wrap := { width := ctx.style.width - textStart, sticky := ctx.sticky }
  match wrap.lines text with
  | [] => trimEnd (lead ++ header) ++ ['\n']
  | first :: rest =>
    lead ++ header ++ first ++ ['\n'] ++
      leadLines (lead ++ indentation leadWidth textStart ctx.style.tabSize) rest

/-- A header, then the text aligned under the header's end. -/
def contiguous (ctx : Context) (lead header text : Text) : Text :=
  let leadWidth := visualWidth lead ctx.style.tabSize
  contiguousAt ctx leadWidth (leadWidth + textWidth header) lead header text

/-- A head line as it is, then the text below it behind a lead. -/
def breaking (ctx : Context) (head bodyLead text : Text) : Text :=
  trimEnd head ++ ['\n'] ++ leadLines bodyLead ((ctx.wrapBehind bodyLead).lines text)

/-- A bullet, then the text, with later lines one tab deeper than the bullet. -/
def bullet (ctx : Context) (lead start text : Text) : Text :=
  match (ctx.wrapBullet lead start).lines text with
  | [] => lead ++ start ++ ['\n']
  | first :: rest => lead ++ start ++ first ++ ['\n'] ++ leadLines (lead ++ ['\t']) rest

end Reflow.Layout
