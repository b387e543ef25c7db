import Reflow.Regex.Machine
import Reflow.Regex.Storage
import Reflow.Regex.Token

/-!
# Patterns

The term that a pattern denotes, and the machine that matches it. Tokens are taken one by one; open
groups are kept on a stack, and closing a group hands its term to the group around it. A pattern is
refused if it is malformed or in notation that tokens do not cover, if its parts are nested too deep,
or if it takes too much storage.
-/

namespace Reflow.Regex

/-- How deep the parts of a pattern may be nested. -/
def heightLimit : Nat := 250

/-- A piece of a sequence, and how deep parts are nested in it. -/
structure Piece where
  term : Term
  height : Nat := 0
  /-- A change of switches stands in the sequence but cannot be repeated. -/
  repeatable : Bool := true

/-- Pieces of which there may be one or several; several are one level higher. -/
def Piece.together (join : List Term → Term) (pieces : List Piece) : Piece :=
  match pieces with
  | [piece] => { piece with repeatable := true }
  | [] => ⟨join [], 0, true⟩
  | pieces => ⟨join (pieces.map Piece.term), heightAbove (pieces.map Piece.height), true⟩

structure Group where
  /-- The number of the group, if it has one. -/
  index : Option Nat := none
  flags : Flags := {}
  /-- The finished alternatives, last one first. -/
  alternatives : List Piece := []
  /-- The pieces of the current alternative, last one first. -/
  pieces : List Piece := []

def Group.current (group : Group) : Piece := .together .concat group.pieces.reverse

def Group.contents (group : Group) : Piece :=
  .together .choice (group.current :: group.alternatives).reverse

def Group.close (group : Group) : Piece :=
  let contents := group.contents
  let term := match group.index with
    | some index => .group index contents.term
    | none => contents.term
  ⟨term, contents.height + 1, true⟩

def Group.push (group : Group) (term : Term) (height : Nat := 0) : Group :=
  { group with pieces := ⟨term, height, true⟩ :: group.pieces }

def Flags.change (flags : Flags) : Char × Bool → Flags
  | ('s', value) => { flags with dotAll := value }
  | ('m', value) => { flags with multiLine := value }
  | ('U', value) => { flags with swapGreed := value }
  | _ => flags

def Flags.changes (flags : Flags) (changes : List (Char × Bool)) : Flags :=
  changes.foldl Flags.change flags

/-- The open groups, innermost first, and how many numbered groups were opened. -/
structure Nesting where
  groups : List Group := [{}]
  numbered : Nat := 0

/-- Takes one token into the innermost open group. -/
def Nesting.take (nesting : Nesting) (token : Token) : Option Nesting :=
  match nesting.groups with
  | [] => none
  | group :: outer =>
    let within (group : Group) : Option Nesting :=
      some { nesting with groups := group :: outer }
    match token with
    | .char c => within (group.push (.chars (.single c)))
    | .dot =>
      let members := if group.flags.dotAll then .any else .complement (.single '\n')
      within (group.push (.chars members))
    | .chars members height => within (group.push (.chars members) height)
    | .anchor condition => within (group.push (.anchor condition))
    | .caret =>
      within (group.push (.anchor (if group.flags.multiLine then .lineStart else .textStart)))
    | .dollar =>
      within (group.push (.anchor (if group.flags.multiLine then .lineEnd else .textEnd)))
    | .numbered _ =>
      let index := nesting.numbered + 1
      some ⟨{ index := some index, flags := group.flags } :: group :: outer, index⟩
    | .opening changes =>
      some { nesting with groups := { flags := group.flags.changes changes } :: group :: outer }
    | .switches changes =>
      within { group with
        flags := group.flags.changes changes
        pieces := ⟨.empty, 0, false⟩ :: group.pieces }
    | .closing =>
      match outer with
      | [] => none
      | parent :: outer =>
        some { nesting with
          groups := { parent with pieces := group.close :: parent.pieces } :: outer }
    | .bar =>
      within { group with alternatives := group.current :: group.alternatives, pieces := [] }
    | .repetition least most marked =>
      match group.pieces with
      | piece :: pieces =>
        if piece.repeatable then
          let greedy := marked == group.flags.swapGreed
          let term := Term.repeated least most greedy piece.term
          within { group with pieces := ⟨term, piece.height + 1, true⟩ :: pieces }
        else none
      | [] => none

def groupNames (tokens : List Token) : List Text :=
  tokens.filterMap fun
    | .numbered name => name
    | _ => none

/-- The term denoted by tokens, if their groups are balanced, have different names and are not
nested too deep. -/
def termOfTokens? (tokens : List Token) : Option Term := do
  let nesting ← tokens.foldlM Nesting.take {}
  match nesting.groups with
  | [group] =>
    let contents := group.contents
    if (groupNames tokens).Nodup && contents.height ≤ heightLimit then some contents.term else none
  | _ => none

def termOfPattern? (pattern : Text) : Option Term := (tokens pattern).bind termOfTokens?

/-- The machine of a pattern, if it is well formed and does not take too much storage. -/
def machineOfPattern? (pattern : Text) : Option Machine := do
  let term ← termOfPattern? pattern
  if term.totalStorage ≤ storageLimit then some (.ofRegex term.regex) else none

/-- A pattern compiled for matching at the front of a text: it is set in a group behind the
condition that the text starts there. -/
def anchored? (pattern : String) : Option Machine :=
  machineOfPattern? ("^(?:".toList ++ pattern.toList ++ [')'])

end Reflow.Regex
