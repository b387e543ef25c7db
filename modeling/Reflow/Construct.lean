/-!
# Constructs

The kinds of paragraph in a document, the marker that opens each, and the way each is laid out.
-/

namespace Reflow

/-- How a construct is laid out. -/
inductive Strategy where
  /-- A header, then text aligned under the header's end. -/
  | contiguous
  /-- A header line, then text one level deeper. -/
  | breaking
  /-- Code moved to one level of indentation and never wrapped. -/
  | fenced
  /-- Bullet items. -/
  | bullets
  /-- One line with its spacing made regular. -/
  | reference
  /-- Left as it is. -/
  | verbatim
  deriving DecidableEq, Repr

inductive Construct where
  | brief
  | param
  | tparam
  | returns
  | code
  | note
  | warning
  | throws
  | see
  | related
  | relatedAlso
  | table
  | listItems
  | referenceLink
  | details
  | text
  deriving DecidableEq, Repr

namespace Construct

def all : List Construct :=
  [brief, param, tparam, returns, code, note, warning, throws, see, related, relatedAlso, table,
    listItems, referenceLink, details, text]

/-- The label under which grammars capture a construct. -/
def label : Construct → String
  | brief => "brief"
  | param => "param"
  | tparam => "tparam"
  | returns => "returns"
  | code => "code"
  | note => "note"
  | warning => "warning"
  | throws => "throws"
  | see => "see"
  | related => "related"
  | relatedAlso => "related_also"
  | table => "table"
  | listItems => "list_items"
  | referenceLink => "reference_link"
  | details => "details"
  | text => "text"

/-- The marker that is written in front of a construct, empty for prose. -/
def marker : Construct → String
  | brief => "@brief"
  | param => "@param"
  | tparam => "@tparam"
  | returns => "@returns"
  | code => "@code"
  | note => "@note"
  | warning => "@warning"
  | throws => "@throws"
  | see => "@see"
  | related => "@related"
  | relatedAlso => "@relatedalso"
  | table | listItems | referenceLink | details | text => ""

def strategy : Construct → Strategy
  | brief | param | tparam | returns | details | text => .contiguous
  | code => .fenced
  | note | warning | throws => .breaking
  | see | related | relatedAlso => .reference
  | table | referenceLink => .verbatim
  | listItems => .bullets

def ofLabel? (label : String) : Option Construct := all.find? (·.label == label)

/-- Whether a construct takes part in the alignment of parameters. -/
def isParameter : Construct → Bool
  | param | tparam => true
  | _ => false

end Construct

end Reflow
