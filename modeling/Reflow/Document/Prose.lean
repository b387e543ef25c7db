import Reflow.Document.ListItem
import Reflow.Document.Pattern
import Reflow.Document.Reading

/-!
# Prose

Paragraphs and bullet lists without comment punctuation, with blank lines between them. A text line
that follows a bullet item continues it.
-/

namespace Reflow.Document.Prose

open Text Layout Reflow.Expr

inductive Item where
  /-- Lines of text; the lead of each is its indentation. -/
  | text (lines : List TagLine)
  | listItems (items : List ListItem)
  /-- The first of some blank lines. -/
  | separator (line : Text)
  deriving DecidableEq, Repr

def listStart (contents : String) : Expr :=
  capture
    (sequence
      [capture (regex Pattern.indentation) "indentation", capture (regex Pattern.bullet) "start",
        capture (regex contents) "contents", literal "\n"])
    "start_line"

def rules : Rules :=
  [("paragraphs",
      many (choice
        [capture (reference "separator") "separator", capture (reference "list_items") "list_items",
          capture (reference "text") "text"])),
    ("separator", many1 (regex Pattern.blankLine)),
    ("text_line",
      capture
        (sequence
          [capture (regex Pattern.indentation) "prefix", notAhead (regex Pattern.bullet),
            capture (regex "\\S.*") "contents", literal "\n"])
        "line"),
    ("text", many1 (reference "text_line")),
    ("list_items",
      many1 (choice
        [capture (reference "breaking_list_item") "breaking_list_item",
          capture (reference "list_item") "list_item"])),
    ("breaking_list_item", sequence [listStart ".*<br>", many (reference "text_line")]),
    ("list_item", sequence [listStart Pattern.restOfLine, many (reference "text_line")])]

def grammar : Except GrammarFault Grammar := Grammar.build rules

def lineOfTree (input : Text) (tree : Tree) : TagLine :=
  { lead := tree.attrText "prefix" input, contents := tree.attrText "contents" input }

def item? (input : Text) (part : Tree) : Option Item :=
  match part.label? with
  | some "separator" => some (.separator (firstLine (part.textIn input)))
  | some "list_items" => some (.listItems (part.captures.map (ListItem.ofTree input)))
  | some "text" => some (.text (part.captures.map (lineOfTree input)))
  | _ => none

/-- Reads prose that ends with a line break. -/
def parse (text : Text) : Except FormatError (List Item) :=
  readWith grammar (fun tree => tree.captures.filterMap (item? text)) text

def composeItem (ctx : Context) : Item → Text
  | .separator line => line
  | .text lines => contiguous ctx (leadOf lines) [] (joinLines lines)
  | .listItems items => items.flatMap (ListItem.compose ctx)

def compose (style : Style) (items : List Item) : Text :=
  items.flatMap (composeItem { style, sticky := opensBullet })

end Reflow.Document.Prose
