import Reflow.Document.Pattern
import Reflow.Grammar.Builder

/-!
# The grammar of block comments

Every line between the opening and the closing one carries a star in front. A line that continues a
construct may not look like the start of another one.
-/

namespace Reflow.Document.Block

open Reflow.Expr Pattern

/-- A marker that is not the front of a longer word. -/
def command (marker : String) : Expr := sequence [literal marker, notAhead (regex "\\w")]

def lead : Expr := capture (reference "prefix") "prefix"

/-- The lead of a line with at most one blank behind the star, captured. -/
def fixedLead : Expr := capture (reference "prefix_fixed") "prefix"

def argument : Option Expr → List Expr
  | some inner => [capture inner "parameters", regex indentation]
  | none => []

def headerLine (marker : Expr) (inner : Option Expr) : Expr :=
  capture
    (sequence
      ([lead, marker, regex indentation] ++ argument inner ++
        [capture (regex restOfLine) "contents", literal "\n"]))
    "line"

/-- The line that a marker opens, then continuation lines. -/
def tagged (marker : Expr) (inner : Option Expr) : Expr :=
  sequence [headerLine marker inner, many (reference "command_line")]

def listStart (contents : String) : Expr :=
  capture
    (sequence
      [fixedLead, capture (regex indentation) "indentation",
        capture (regex bullet) "start", capture (regex contents) "contents", literal "\n"])
    "start_line"

/-- A rule, captured under its own name. -/
def captured (rule : String) : Expr := capture (reference rule) rule

def rules : Rules :=
  [("block_comment",
      sequence
        [captured "start",
          many (choice
            [captured "separator", captured "brief", captured "parameters", captured "returns",
              captured "code", captured "note", captured "warning", captured "throws",
              captured "see", captured "related_also", captured "related", captured "table",
              captured "list_items", captured "reference_link", captured "details"]),
          captured "end"]),
    ("start", sequence [regex "[\\t ]*/\\*\\*?", regex indentation, regex "\\n"]),
    ("end", sequence [regex "[\\t ]*\\*\\*?/", regex indentation, lineEnd]),
    ("prefix", sequence [regex "[\\t ]*\\*", choice [regex blanks, atLineEnd]]),
    ("prefix_fixed", sequence [regex "[\\t ]*\\*", choice [regex "[\\t ]", atLineEnd]]),
    ("separator_line", sequence [reference "prefix", literal "\n"]),
    ("separator", many1 (reference "separator_line")),
    ("command_line",
      capture
        (sequence
          [lead, notAhead (regex tagStart), capture (regex nonEmptyRest) "contents", literal "\n"])
        "line"),
    ("brief", tagged (command "@brief") none),
    ("parameters",
      sequence
        [many1 (reference "parameter"),
          many (sequence [captured "separator", many1 (reference "parameter")])]),
    ("parameter", choice [captured "tparam", captured "param"]),
    ("param", tagged (command "@param") (some (regex expression))),
    ("tparam", tagged (command "@tparam") (some (regex expression))),
    ("returns", tagged (choice [command "@returns", command "@return"]) none),
    ("code",
      sequence
        [capture
            (sequence
              [lead, command "@code", regex indentation,
                capture (optional (regex "\\\x7b.+?\\\x7d")) "parameters",
                regex indentation, literal "\n"])
            "line",
          many (choice [reference "code_line", capture (reference "separator_line") "blank"]),
          capture (sequence [lead, literal "@endcode", regex indentation, lineEnd]) "end"]),
    ("code_line",
      capture
        (sequence
          [fixedLead, notAhead (regex "[\\t ]*@endcode"),
            capture (regex nonEmptyRest) "contents", literal "\n"])
        "code_line"),
    ("note", tagged (command "@note") none),
    ("warning", tagged (command "@warning") none),
    ("throws", tagged (command "@throws") (some (regex expression))),
    ("see", headerLine (command "@see") none),
    ("related_also", headerLine (command "@relatedalso") none),
    ("related", headerLine (command "@related") none),
    ("table",
      many1
        (capture (sequence [lead, literal "|", regex restOfLine, literal "\n"]) "line")),
    ("list_items", many1 (choice [captured "breaking_list_item", captured "list_item"])),
    ("breaking_list_item", sequence [listStart ".*<br>", many (reference "command_line")]),
    ("list_item", sequence [listStart restOfLine, many (reference "command_line")]),
    ("reference_link", capture (sequence [lead, regex "\\[.+\\]: .*", literal "\n"]) "line"),
    ("details", many1 (reference "command_line"))]

def grammar : Except GrammarFault Grammar := Grammar.build rules

end Reflow.Document.Block
