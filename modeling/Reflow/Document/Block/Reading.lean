import Reflow.Document.Block.Basic
import Reflow.Document.Block.Grammar
import Reflow.Document.Reading

/-!
# Reading block comments

What the captures of a parse tree mean: each capture below the root is the opening line, the closing
line, a separator or one paragraph, and its label names the kind of the paragraph.
-/

namespace Reflow.Document.Block

def entryAt? (input : Text) (part : Tree) : Option RunEntry :=
  match part.label? with
  | some "separator" => some (.separator (firstLine (part.textIn input)))
  | some label =>
    match Construct.ofLabel? label with
    | some kind =>
      if kind.isParameter then some (.parameter ⟨kind, linesOfTree input part⟩) else none
    | none => none
  | none => none

def runEntries (input : Text) (tree : Tree) : List RunEntry :=
  tree.captures.filterMap (entryAt? input)

def codeLine? (input : Text) (part : Tree) : Option (Option Text) :=
  match part.label? with
  | some "code_line" => some (some (part.attrText "contents" input))
  | some "blank" => some none
  | _ => none

def code (input : Text) (tree : Tree) : Paragraph :=
  let parts := tree.captures
  let header := parts.find? (·.label? == some "line")
  let close := parts.find? (·.label? == some "end")
  .code ((header.map (TagLine.ofTree input)).getD {}) (parts.filterMap (codeLine? input))
    ((close.map (·.textIn input)).getD [])

def paragraph (input : Text) (kind : Construct) (tree : Tree) : Paragraph :=
  match kind.strategy with
  | .fenced => code input tree
  | .bullets => .listItems (tree.captures.map (ListItem.ofTree input))
  | .verbatim => .verbatim kind (tree.textIn input)
  | .breaking => .breaking kind (linesOfTree input tree)
  | .reference => .reference kind ((linesOfTree input tree).head?.getD {})
  | .contiguous => .contiguous kind (linesOfTree input tree)

def item? (input : Text) (part : Tree) : Option BlockItem :=
  match part.label? with
  | some "start" | some "end" => none
  | some "separator" => some (.separator (firstLine (part.textIn input)))
  | some "parameters" => some (.paragraph (.parameters (runEntries input part)))
  | some label =>
    (Construct.ofLabel? label).map fun kind => .paragraph (paragraph input kind part)
  | none => none

def captureText (input : Text) (parts : List Tree) (label : String) : Text :=
  match parts.find? (·.label? == some label) with
  | some part => part.textIn input
  | none => []

def ofTree (input : Text) (tree : Tree) : BlockComment :=
  let parts := tree.captures
  { start := captureText input parts "start"
    items := parts.filterMap (item? input)
    stop := captureText input parts "end" }

/-- Reads a block comment that ends with a line break. -/
def parse (text : Text) : Except FormatError BlockComment :=
  readWith grammar (ofTree text) text

end Reflow.Document.Block
