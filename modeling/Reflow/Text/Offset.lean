import Reflow.Text.Basic

/-!
# Byte offsets

Texts are lists of characters and offsets count the bytes of their UTF-8 form. An offset inside a
character or past the end of a text is no boundary of it, and cutting there is refused.
-/

namespace Reflow.Text

/-- Number of UTF-8 bytes of a text. -/
def byteLength : Text → Nat
  | [] => 0
  | c :: rest => c.utf8Size + byteLength rest

/-- Cuts a text at a byte offset, if that offset is a character boundary. -/
def splitBytes? : Nat → Text → Option (Text × Text)
  | 0, text => some ([], text)
  | _ + 1, [] => none
  | n + 1, c :: rest =>
    if c.utf8Size ≤ n + 1 then
      match splitBytes? (n + 1 - c.utf8Size) rest with
      | some (before, after) => some (c :: before, after)
      | none => none
    else none

/-- The longest front of a text that fits in a number of bytes. -/
def takeBytes : Nat → Text → Text
  | _, [] => []
  | n, c :: rest => if c.utf8Size ≤ n then c :: takeBytes (n - c.utf8Size) rest else []

/-- The rest of a text behind `takeBytes`. -/
def dropBytes : Nat → Text → Text
  | _, [] => []
  | n, c :: rest => if c.utf8Size ≤ n then dropBytes (n - c.utf8Size) rest else c :: rest

/-- A range of byte offsets, the second one excluded. -/
structure Span where
  start : Nat
  stop : Nat
  deriving DecidableEq, Repr

def Span.length (span : Span) : Nat := span.stop - span.start

def Span.contains (span : Span) (offset : Nat) : Bool :=
  span.start ≤ offset && offset < span.stop

/-- The characters of a text within a span whose ends are character boundaries. -/
def Span.slice (span : Span) (text : Text) : Text :=
  takeBytes span.length (dropBytes span.start text)

/-- The characters of a text within a span; nothing if an end of the span is no character boundary of
the text. -/
def Span.slice? (span : Span) (text : Text) : Option Text :=
  (splitBytes? span.start text).bind fun cut => (splitBytes? span.length cut.2).map (·.1)

end Reflow.Text
