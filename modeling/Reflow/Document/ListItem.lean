import Reflow.Document.TagLine
import Reflow.Layout.Lines

/-!
# Bullet items

An item is a bullet with a text. One that breaks after its first line keeps that line as it is.
-/

namespace Reflow.Document

open Text Layout

structure ListItem where
  /-- Whether the first line ends with a break and stays as it is. -/
  breaking : Bool := false
  /-- The first line, without its line break. -/
  head : Text := []
  /-- What stands before the item. -/
  lead : Text := []
  /-- Blanks between that and the bullet. -/
  indent : Text := []
  /-- The bullet and its space. -/
  start : Text := []
  /-- The text of the first line, then of each continuation line. -/
  contents : List Text := []
  deriving DecidableEq, Repr

/-- What the first line of an item tells of it. -/
def ListItem.ofStart (input : Text) (line : Tree) : ListItem :=
  { head := dropEndWhile (· == '\n') (line.textIn input)
    lead := line.attrText "prefix" input
    indent := line.attrText "indentation" input
    start := line.attrText "start" input
    contents := [line.attrText "contents" input] }

def ListItem.ofTree (input : Text) (tree : Tree) : ListItem :=
  { ((tree.captures.find? (·.label? == some "start_line")).map (ofStart input)).getD {} with
    breaking := tree.label? == some "breaking_list_item"
    contents := tree.captures.map (·.attrText "contents" input) }

def ListItem.compose (ctx : Context) (item : ListItem) : Text :=
  let lead := item.lead ++ item.indent
  if item.breaking then
    Layout.breaking ctx item.head (lead ++ ['\t']) (joinContents (item.contents.drop 1))
  else Layout.bullet ctx lead item.start (joinContents item.contents)

end Reflow.Document
