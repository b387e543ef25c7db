/-!
# Style

The settings of one formatting request. A width or tab size of zero is taken as one.
-/

namespace Reflow

/-- What happens to parameters whose name is the placeholder for a missing name. -/
inductive UnnamedPolicy where
  | drop
  | keep
  deriving DecidableEq, Repr

def UnnamedPolicy.name : UnnamedPolicy → String
  | .drop => "drop"
  | .keep => "keep"

def UnnamedPolicy.ofName? : String → Option UnnamedPolicy
  | "drop" => some .drop
  | "keep" => some .keep
  | _ => none

/-- Settings of one formatting request. -/
structure Style where
  width : Nat := 80
  tabSize : Nat := 4
  unnamed : UnnamedPolicy := .drop
  width_pos : 0 < width := by decide
  tabSize_pos : 0 < tabSize := by decide
  deriving DecidableEq, Repr

namespace Style

/-- Sets the line width, at least one column. -/
def withWidth (style : Style) (width : Nat) : Style :=
  { style with width := max width 1, width_pos := Nat.le_max_right width 1 }

/-- Sets the tab size, at least one column. -/
def withTabSize (style : Style) (tabSize : Nat) : Style :=
  { style with tabSize := max tabSize 1, tabSize_pos := Nat.le_max_right tabSize 1 }

def withUnnamed (style : Style) (policy : UnnamedPolicy) : Style := { style with unnamed := policy }

/-- The default style with a given width and tab size. -/
def ofSizes (width tabSize : Nat) : Style := (({} : Style).withWidth width).withTabSize tabSize

/-- The style of an editor: the first ruler is the width, and what is missing has its default. -/
def ofSettings (rulers : Option (List Nat)) (tabSize : Option Nat) : Style :=
  ofSizes ((rulers.bind List.head?).getD 80) (tabSize.getD 4)

end Style

end Reflow
