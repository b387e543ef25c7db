import Reflow.Document.Scope
import Reflow.Json.Decode
import Reflow.Json.Printer
import Reflow.Json.Reader

/-!
# Edits as JSON

An edit is an object with a range and a text. A range has a start and an end and nothing else.
-/

namespace Reflow

open Json Text

/-- Whether a value has no members besides those named. -/
def hasOnly (names : List String) : Json → Bool
  | .object members => members.all fun member => names.contains member.1
  | _ => true

def spanOfJson? (json : Json) : Option Span := do
  if !hasOnly ["start", "end"] json then none
  let [some start, some stop] ← fields? ["start", "end"] json | none
  return ⟨← nat? start, ← nat? stop⟩

namespace TextEdit

def ofJson? (json : Json) : Option TextEdit := do
  let [some range, some newText] ← fields? ["range", "new_text"] json | none
  return ⟨← spanOfJson? range, (← string? newText).toList⟩

def ofText? (text : String) : Option TextEdit := (Json.parse? text).bind ofJson?

def toJson (edit : TextEdit) : Json :=
  .object
    [("range", .object
        [("start", .number (.natural edit.span.start)),
          ("end", .number (.natural edit.span.stop))]),
      ("new_text", .string (String.ofList edit.newText))]

def toText (edit : TextEdit) : String := edit.toJson.text

end TextEdit

end Reflow
