import Reflow.Document.Pattern
import Reflow.Document.Reading
import Reflow.Document.TagLine
import Reflow.Layout.Lines

/-!
# Line comments

Every line carries comment punctuation in front. Lines with nothing else separate paragraphs.
-/

namespace Reflow.Document.LineComment

open Text Layout Reflow.Expr

inductive Item where
  | paragraph (lines : List TagLine)
  /-- The first of some lines without text. -/
  | separator (line : Text)
  deriving DecidableEq, Repr

def rules : Rules :=
  [("line_comment",
      many (choice
        [capture (reference "separator") "separator", capture (reference "text") "text"])),
    ("prefix",
      sequence
        [regex Pattern.indentation, capture (regex "//+!?|#+") "punctuation",
          choice [literal " ", lookahead (regex "\\w") true, atLineEnd]]),
    ("separator", many1 (sequence [reference "prefix", regex Pattern.indentation, literal "\n"])),
    ("line",
      capture
        (sequence
          [capture (reference "prefix") "prefix", capture (regex "[\\t ]*\\S.*") "contents",
            literal "\n"])
        "line"),
    ("text", many1 (reference "line"))]

def grammar : Except GrammarFault Grammar := Grammar.build rules

def lineOfTree (input : Text) (tree : Tree) : TagLine :=
  { lead := tree.attrText "prefix" input, contents := tree.attrText "contents" input }

def item? (input : Text) (part : Tree) : Option Item :=
  match part.label? with
  | some "separator" => some (.separator (firstLine (part.textIn input)))
  | some "text" => some (.paragraph (part.captures.map (lineOfTree input)))
  | _ => none

/-- Reads line comments that end with a line break. -/
def parse (text : Text) : Except FormatError (List Item) :=
  readWith grammar (fun tree => tree.captures.filterMap (item? text)) text

/-- Whether a word would lengthen the punctuation before it. -/
def extendsPunctuation (word : Text) : Bool :=
  word.head? == some '/' || word.head? == some '#'

/-- Whether a word needs a blank between it and the punctuation. -/
def needsBlank (word : Text) : Bool :=
  match word with
  | c :: _ => !isWordChar c
  | [] => true

/-- The words that may not begin a line behind a lead. -/
def stickyBehind (lead : Text) : Sticky :=
  match lead.getLast? with
  | some c => if isIndent c then extendsPunctuation else needsBlank
  | none => needsBlank

/-- What lines behind a lead are written with. -/
def contextBehind (style : Style) (lead : Text) : Context := { style, sticky := stickyBehind lead }

/-- Writes one element. Every line of a paragraph gets the lead of its first line. -/
def composeItem (style : Style) : Item → Text
  | .separator line => line
  | .paragraph lines =>
    let lead := leadOf lines
    contiguous (contextBehind style lead) lead [] (joinLines lines)

def compose (style : Style) (items : List Item) : Text := items.flatMap (composeItem style)

end Reflow.Document.LineComment
