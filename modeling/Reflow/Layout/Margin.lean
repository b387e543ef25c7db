import Reflow.Text.Blank

/-!
# Common margins

The margin of some lines is the longest text of tabs and spaces with which every line that is not
blank begins. Tabs and spaces are compared as characters.
-/

namespace Reflow.Layout

open Text

/-- The longest text with which both texts begin. -/
def commonFront : Text → Text → Text
  | a :: first, b :: second => if a = b then a :: commonFront first second else []
  | _, _ => []

def indentOf (line : Text) : Text := line.takeWhile isIndent

/-- The common front of texts, if there is one at all. -/
def commonFronts : List Text → Text
  | [] => []
  | first :: rest => rest.foldl commonFront first

/-- The tabs and spaces shared by all lines that are not blank. -/
def margin (lines : List Text) : Text :=
  commonFronts ((lines.filter (fun line => !isBlankText line)).map indentOf)

/-- Takes the common margin off each line; blank lines become empty. -/
def dedent (lines : List Text) : List Text :=
  let width := (margin lines).length
  lines.map fun line => if isBlankText line then [] else line.drop width

end Reflow.Layout
