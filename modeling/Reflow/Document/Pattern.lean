import Reflow.Text.Blank

/-!
# Lexical patterns

The patterns that the grammars share, and the words that a reader would take for the start of
something else if they began a line.
-/

namespace Reflow.Document

namespace Pattern

/-- Tabs and spaces, possibly none. -/
def indentation : String := "[\\t ]*"

/-- At least one tab or space. -/
def blanks : String := "[\\t ]+"

/-- All that is left of a line, possibly nothing. -/
def restOfLine : String := ".*"

/-- All that is left of a line, at least one character. -/
def nonEmptyRest : String := ".+"

/-- A name: characters that are not blank. -/
def expression : String := "\\S+"

/-- A bullet and the space behind it. -/
def bullet : String := "[\\+\\-\\*] "

/-- A line of nothing but indentation. -/
def blankLine : String := "[\\t ]*\\n"

/-- The start of anything that opens a construct in a block comment. A marker counts only as a whole
word. -/
def tagStart : String :=
  "[\\t ]*(?:(?:@brief|@tparam|@param|@returns?|@code|@endcode|@note|@warning|@throws|@see" ++
    "|@relatedalso|@related)\\b|\\||\\[.+\\]:|[\\+\\-\\*] )"

end Pattern

/-- The markers that open constructs in a block comment. -/
def markers : List String :=
  ["@brief", "@tparam", "@param", "@returns", "@return", "@code", "@endcode", "@note", "@warning",
    "@throws", "@see", "@relatedalso", "@related"]

/-- Whether a word would be read as a bullet if it began a line. -/
def opensBullet (word : Text) : Bool := word == ['+'] || word == ['-'] || word == ['*']

/-- Whether a word would be read as the start of a construct if it began a line of a block comment.
Any bracket counts, since it could open the label of a link later on. -/
def opensConstruct (word : Text) : Bool :=
  markers.any (fun marker => marker.toList.isPrefixOf word) ||
    word.head? == some '|' || word.head? == some '[' || opensBullet word

end Reflow.Document
