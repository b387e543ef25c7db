import Reflow.Text.Basic
import Reflow.Text.Width.Sequence

/-!
# Display widths

Two measures of how many columns a text takes. `charWidth` looks at one character alone and gives a
control character no column. `textWidth` gives control characters one column each and knows the
sequences that are drawn as one: a line break of two characters, emoji with selectors, skin tones
and joiners, and ligatures.
-/

namespace Reflow.Text

def isControl (c : Char) : Bool :=
  c.toNat < 0x20 || (0x7f ≤ c.toNat && c.toNat < 0xa0)

/-- Columns of a character by itself; a control code takes none. -/
def charWidth (c : Char) : Nat := if isControl c then 0 else plainWidth c

/-- Folds a text from its end, adding up columns. -/
def measure (text : Text) : Int × Follow :=
  text.foldr
    (fun c (columns, follow) =>
      let (added, seen) := follow.step c
      (columns + added, seen))
    (0, {})

/-- Columns of a text, sequences counted as they are drawn. -/
def textWidth (text : Text) : Nat := (measure text).1.toNat

end Reflow.Text
