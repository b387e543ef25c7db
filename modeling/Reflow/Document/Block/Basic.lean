import Reflow.Document.ListItem
import Reflow.Document.Parameters

/-!
# Block comments

A block comment has an opening line, a body of paragraphs and separators, and a closing line.
-/

namespace Reflow.Document

inductive Paragraph where
  /-- A summary, a result, or prose. -/
  | contiguous (kind : Construct) (lines : List TagLine)
  /-- A run of parameters. -/
  | parameters (entries : List RunEntry)
  /-- A note, a warning or an exception. -/
  | breaking (kind : Construct) (lines : List TagLine)
  /-- Fenced code: the opening line, the lines between the fences, and the closing line as it is. A
  blank line has no text. -/
  | code (header : TagLine) (body : List (Option Text)) (close : Text)
  /-- A reference to something else. -/
  | reference (kind : Construct) (line : TagLine)
  | listItems (items : List ListItem)
  /-- A table or the target of a link, as it is. -/
  | verbatim (kind : Construct) (text : Text)
  deriving DecidableEq, Repr

def Paragraph.kind : Paragraph → Construct
  | contiguous kind _ | breaking kind _ | reference kind _ | verbatim kind _ => kind
  | parameters _ => .param
  | code _ _ _ => .code
  | listItems _ => .listItems

inductive BlockItem where
  | paragraph (content : Paragraph)
  /-- The first of some empty comment lines. -/
  | separator (line : Text)
  deriving DecidableEq, Repr

def BlockItem.isSeparator : BlockItem → Bool
  | paragraph _ => false
  | separator _ => true

structure BlockComment where
  /-- The opening line as it is. -/
  start : Text := []
  items : List BlockItem := []
  /-- The closing line as it is. -/
  stop : Text := []
  deriving DecidableEq, Repr

end Reflow.Document
