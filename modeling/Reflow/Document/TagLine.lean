import Reflow.Layout.Wrap
import Reflow.Parsing.Tree
import Reflow.Text.Position

/-!
# Lines of a construct

One line of a construct falls into the lead of the line, an argument and the text behind it.
-/

namespace Reflow.Document

open Text

structure TagLine where
  /-- What stands before the construct, the blanks behind the comment mark included. -/
  lead : Text := []
  /-- The argument of a marker: a parameter name, an exception, a language. -/
  argument : Text := []
  /-- The text behind it. -/
  contents : Text := []
  deriving DecidableEq, Repr

def joinContents (contents : List Text) : Text :=
  Layout.joinWords (contents.flatMap words)

def joinLines (lines : List TagLine) : Text := joinContents (lines.map (·.contents))

def leadOf (lines : List TagLine) : Text := (lines.head?.map (·.lead)).getD []

def TagLine.ofTree (input : Text) (tree : Tree) : TagLine :=
  { lead := tree.attrText "prefix" input
    argument := tree.attrText "parameters" input
    contents := tree.attrText "contents" input }

def linesOfTree (input : Text) (tree : Tree) : List TagLine :=
  (tree.captures.filter (·.label? == some "line")).map (TagLine.ofTree input)

/-- The first line of a text, with its line break. -/
def firstLine (text : Text) : Text := ((lines text).head?).getD []

/-- Reduces every run of neighbours that satisfy a test to its first one; the flag says whether one
stands before. -/
def collapseFrom {α : Type} (test : α → Bool) : Bool → List α → List α
  | _, [] => []
  | before, item :: rest =>
    if before && test item then collapseFrom test true rest
    else item :: collapseFrom test (test item) rest

/-- Reduces every run of neighbours that satisfy a test to its first one. -/
def collapse {α : Type} (test : α → Bool) (items : List α) : List α := collapseFrom test false items

end Reflow.Document
