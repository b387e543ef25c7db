import Reflow.Document.Format

/-!
# Scopes

The part of a document that an offset belongs to, as a span of whole lines, and the edit that
formats it.
-/

namespace Reflow

open Text

/-- The byte offsets where two characters stand next to each other. -/
def pairOffsets (first second : Char) (start : Nat) : Text → List Nat
  | a :: b :: rest =>
    let later := pairOffsets first second (start + a.utf8Size) (b :: rest)
    if a = first && b = second then start :: later else later
  | _ => []

def lineStart (document : Text) (offset : Nat) : Nat :=
  match (lineSpans document).find? (·.contains offset) with
  | some span => span.start
  | none => byteLength document

def lineStop (document : Text) (offset : Nat) : Nat :=
  match (lineSpans document).find? (·.contains offset) with
  | some span => span.stop
  | none => byteLength document

/-- The block comment around an offset, widened to whole lines. It is opened by the last mark at or
before the offset and closed by the first mark behind that. -/
def blockScope? (document : Text) (offset : Nat) : Option Span := do
  let offset := min offset (byteLength document)
  let opening ← ((pairOffsets '/' '*' 0 document).filter (· ≤ offset)).getLast?
  let closing ← (pairOffsets '*' '/' 0 document).find? (opening + 2 ≤ ·)
  let stop := closing + 2
  if stop < offset then none
  else some ⟨lineStart document opening, lineStop document stop⟩

/-- The run of lines around the line of an offset that satisfy a test, if that line does. -/
def lineRun? (test : Text → Bool) (document : Text) (offset : Nat) : Option Span := do
  let accepted := (lines document).map test
  let spans := lineSpans document
  let row ← lineIndex spans offset
  if accepted[row]? != some true then none
  else
    let above := ((accepted.take row).reverse.takeWhile id).length
    let below := ((accepted.drop (row + 1)).takeWhile id).length
    let first ← spans[row - above]?
    let last ← spans[row + below]?
    return ⟨first.start, last.stop⟩

def isCommentLine (line : Text) : Bool :=
  match line.dropWhile isIndent with
  | '/' :: '/' :: _ => true
  | '#' :: _ => true
  | _ => false

def isEmptyLine (line : Text) : Bool := line.all fun c => c == '\n' || c == '\r'

def commentScope? (document : Text) (offset : Nat) : Option Span :=
  lineRun? isCommentLine document offset

def proseScope? (document : Text) (offset : Nat) : Option Span :=
  lineRun? (fun line => !isEmptyLine line) document offset

/-- The kind and the span of the text at an offset. Block comments come before line comments, and
those before prose. -/
def scope? (document : Text) (offset : Nat) : Option (TextKind × Span) :=
  match blockScope? document offset with
  | some span => some (.blockComment, span)
  | none =>
    match commentScope? document offset with
    | some span => some (.lineComment, span)
    | none => (proseScope? document offset).map (.prose, ·)

def kindAt? (document : Text) (offset : Nat) : Option TextKind :=
  (scope? document offset).map (·.1)

/-- The replacement of a span of a document. -/
structure TextEdit where
  span : Span
  newText : Text
  deriving DecidableEq, Repr

/-- The document after an edit. Both ends of the span have to be character boundaries of the
document. -/
def TextEdit.applyTo? (edit : TextEdit) (document : Text) : Option Text := do
  let (before, _) ← splitBytes? edit.span.start document
  let (_, after) ← splitBytes? edit.span.stop document
  return before ++ edit.newText ++ after

/-- The edit that formats the text at an offset; nothing if there is no text or it stays as it
is. -/
def formatAt (style : Style) (document : Text) (offset : Nat) :
    Except FormatError (Option TextEdit) :=
  match scope? document offset with
  | none => .ok none
  | some (kind, span) => do
    let text := span.slice document
    let formatted ← format style kind text
    return if formatted = text then none else some ⟨span, formatted⟩

end Reflow
