import Reflow.Construct
import Reflow.Document.TagLine
import Reflow.Layout.Lines

/-!
# Parameter runs

A run is a sequence of parameters, possibly with separators between them. The names in a run start
at one column and the descriptions at another.
-/

namespace Reflow.Document

open Text Layout

def unnamedPlaceholder : Text := "<unnamed>".toList

/-- One parameter: its header line, then continuation lines. -/
structure Parameter where
  kind : Construct
  lines : List TagLine
  deriving DecidableEq, Repr

namespace Parameter

def name (parameter : Parameter) : Text := (parameter.lines.head?.map (·.argument)).getD []

def lead (parameter : Parameter) : Text := leadOf parameter.lines

def text (parameter : Parameter) : Text := joinLines parameter.lines

def marker (parameter : Parameter) : Text := parameter.kind.marker.toList

/-- Whether the name is the placeholder for a missing name. -/
def isUnnamed (parameter : Parameter) : Bool := parameter.name == unnamedPlaceholder

end Parameter

inductive RunEntry where
  | parameter (entry : Parameter)
  /-- The first of some empty comment lines. -/
  | separator (line : Text)
  deriving DecidableEq, Repr

def RunEntry.parameter? : RunEntry → Option Parameter
  | .parameter entry => some entry
  | .separator _ => none

def RunEntry.isSeparator : RunEntry → Bool
  | .parameter _ => false
  | .separator _ => true

/-- Whether an entry stays under a policy. -/
def RunEntry.stays (policy : UnnamedPolicy) : RunEntry → Bool
  | .parameter entry => !(entry.isUnnamed && policy == .drop)
  | .separator _ => true

/-- A run that starts and ends with a parameter, and the separators that stood around it. -/
structure TidyRun where
  leading : Option Text := none
  entries : List RunEntry := []
  trailing : Option Text := none
  deriving DecidableEq, Repr

def splitLeading : List RunEntry → Option Text × List RunEntry
  | .separator line :: rest => (some line, rest)
  | entries => (none, entries)

def splitTrailing : List RunEntry → List RunEntry × Option Text
  | [] => ([], none)
  | [.separator line] => ([], some line)
  | entry :: rest =>
    let (kept, trailing) := splitTrailing rest
    (entry :: kept, trailing)

/-- Applies a policy to a run. Separators that come to stand together are reduced to the first one,
and those at the edges move out of the run. -/
def tidyRun (policy : UnnamedPolicy) (entries : List RunEntry) : TidyRun :=
  let kept := collapse RunEntry.isSeparator (entries.filter (RunEntry.stays policy))
  let (leading, kept) := splitLeading kept
  let (kept, trailing) := splitTrailing kept
  { leading, entries := kept, trailing }

def largest (numbers : List Nat) : Nat := numbers.foldl max 0

/-- The columns of a run: names start behind the longest marker and a space, descriptions behind the
longest name and a space. -/
def columnsOf (parameters : List Parameter) : Columns :=
  let nameColumn := largest (parameters.map fun parameter => textWidth parameter.marker + 1)
  let nameWidth := largest (parameters.map fun parameter => textWidth parameter.name + 1)
  { nameColumn, textColumn := nameColumn + nameWidth }

def Parameter.compose (ctx : Context) (columns : Columns) (parameter : Parameter) : Text :=
  contiguous ctx parameter.lead (parameterHeader parameter.marker parameter.name columns)
    parameter.text

def RunEntry.compose (ctx : Context) (columns : Columns) : RunEntry → Text
  | .parameter entry => entry.compose ctx columns
  | .separator line => line

def composeRun (ctx : Context) (entries : List RunEntry) : Text :=
  let columns := columnsOf (entries.filterMap RunEntry.parameter?)
  entries.flatMap (RunEntry.compose ctx columns)

end Reflow.Document
