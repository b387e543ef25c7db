import Reflow.Document.Block.Reading
import Reflow.Document.Block.Writing
import Reflow.Document.LineComment
import Reflow.Document.Prose

/-!
# Formatting

A text of one of three kinds is read and written again. Readers expect every line to end with a line
break; where the last one is missing it is supplied for reading and left out of the result.
-/

namespace Reflow

open Document

inductive TextKind where
  | blockComment
  | lineComment
  | prose
  deriving DecidableEq, Repr

namespace TextKind

def describe : TextKind → String
  | blockComment => "block comment"
  | lineComment => "line comment"
  | prose => "paragraph"

def name : TextKind → String
  | blockComment => "block_comment"
  | lineComment => "line_comment"
  | prose => "paragraph"

def ofName? (name : String) : Option TextKind :=
  [blockComment, lineComment, prose].find? (·.name == name)

def grammar : TextKind → Except GrammarFault Grammar
  | blockComment => Block.grammar
  | lineComment => LineComment.grammar
  | prose => Prose.grammar

end TextKind

/-- Formats a text that ends with a line break. -/
def formatLines (style : Style) (text : Text) : TextKind → Except FormatError Text
  | .blockComment => do
    let comment ← Block.parse text
    return Block.compose style
      { comment with items := Block.normalize style.unnamed comment.items }
  | .lineComment => do
    let items ← LineComment.parse text
    return LineComment.compose style items
  | .prose => do
    let items ← Prose.parse text
    return Prose.compose style items

def endsLine (text : Text) : Bool := text.getLast? == some '\n'

def dropLineBreak (text : Text) : Text := if endsLine text then text.dropLast else text

/-- Formats a text. If the last line break is missing, it is supplied for reading, and the last line
break of the result is taken off. -/
def format (style : Style) (kind : TextKind) (text : Text) : Except FormatError Text :=
  if endsLine text then formatLines style text kind
  else do
    let formatted ← formatLines style (text ++ ['\n']) kind
    return dropLineBreak formatted

end Reflow
