import Reflow.Proofs.MemoTransparency

/-!
# Parse trees lose nothing

The tree of a successful parse tells the matched text piece by piece: every node spans a piece of
the input between two character boundaries, the items of a list lie side by side and make up the
list, a capture spans what its value spans, and the root spans everything that was matched. So the
text of a node is the text of its parts in order, in every state that the parser goes on to.
-/

namespace Reflow

open Text List

namespace Text

/-- A span of a text: both ends are character boundaries, and the slice is what lies between. -/
def Span.Cuts (span : Span) (text : Text) : Prop :=
  ∃ before after, text = before ++ span.slice text ++ after ∧ span.start = byteLength before ∧
    span.stop = byteLength (before ++ span.slice text)

end Text

/-! ## Spans between places -/

namespace Cursor

variable {input taken : Text} {start stop : Cursor}

theorem Takes.slice_eq (takes : start.Takes taken stop) (inside : start.In input) :
    (start.spanTo stop).slice input = taken := by
  obtain ⟨before, reached⟩ := inside
  have whole : input = before ++ taken ++ stop.rest := by
    rw [append_assoc, ← takes.restEq]
    exact reached.restEq
  have offset : start.offset = byteLength before := by simpa using reached.offsetEq
  rw [spanTo, takes.offsetEq, offset, whole]
  exact slice_append before taken stop.rest

theorem Takes.cuts (takes : start.Takes taken stop) (inside : start.In input) :
    (start.spanTo stop).Cuts input := by
  have text := takes.slice_eq inside
  obtain ⟨before, reached⟩ := inside
  have offset : start.offset = byteLength before := by simpa using reached.offsetEq
  refine ⟨before, stop.rest, ?_, offset, ?_⟩
  · rw [text, append_assoc, ← takes.restEq]
    exact reached.restEq
  · rw [text, byteLength_append, ← offset]
    exact takes.offsetEq

end Cursor

namespace Tree

/-! ## Nodes of a tree -/

mutual

def nodes : Tree → List Tree
  | nil offset => [nil offset]
  | text span => [text span]
  | list span items => list span items :: nodesAll items
  | field span label value => field span label value :: nodes value

def nodesAll : List Tree → List Tree
  | [] => []
  | first :: rest => nodes first ++ nodesAll rest

end

/-- Trees lie side by side between two offsets. -/
def Adjacent : Nat → List Tree → Nat → Prop
  | start, [], stop => start = stop
  | start, first :: rest, stop => first.span.start = start ∧ Adjacent first.span.stop rest stop

/-- A node tells its text: it spans a piece of the input, and its parts make up what it spans. -/
structure Lossless (tree : Tree) (input : Text) : Prop where
  cuts : tree.span.Cuts input
  adjacent : ∀ {span items}, tree = list span items → Adjacent span.start items span.stop
  valueSpan : ∀ {span label value}, tree = field span label value → value.span = span
  textEq : ∀ {span items}, tree = list span items →
    items.flatMap (·.textIn input) = tree.textIn input

theorem adjacent_of_coversAll {trees : List Tree} {start stop : Cursor}
    (covers : coversAll trees start stop) : Adjacent start.offset trees stop.offset := by
  induction trees generalizing start with
  | nil => exact congrArg Cursor.offset covers
  | cons first rest ih =>
    obtain ⟨middle, front, back⟩ := covers
    rw [Adjacent, span_of_covers front]
    exact ⟨rfl, ih back⟩

/-- The texts of adjacent pieces are the text between the places. -/
theorem flatMap_textIn_of_coversAll {trees : List Tree} {start stop : Cursor}
    {input taken : Text} (covers : coversAll trees start stop) (inside : start.In input)
    (takes : start.Takes taken stop) : trees.flatMap (·.textIn input) = taken := by
  induction trees generalizing start taken with
  | nil =>
    obtain rfl : start = stop := covers
    exact (takes.eq_of_offset_eq rfl).1.symm
  | cons first rest ih =>
    obtain ⟨middle, front, back⟩ := covers
    obtain ⟨before, takenFront⟩ := takes_of_covers first front
    obtain ⟨behind, takenBack⟩ := takes_of_coversAll rest back
    have text : first.textIn input = before := by
      rw [textIn, span_of_covers front]
      exact takenFront.slice_eq inside
    rw [flatMap_cons, text, ih back (inside.after takenFront) takenBack]
    exact ((takenFront.trans takenBack).slice_eq inside).symm.trans (takes.slice_eq inside)

theorem lossless_of_covers {tree : Tree} {start stop : Cursor} {input : Text}
    (covers : tree.Covers start stop) (inside : start.In input) : tree.Lossless input := by
  obtain ⟨taken, takes⟩ := takes_of_covers tree covers
  have span := span_of_covers covers
  refine ⟨span ▸ takes.cuts inside, ?_, ?_, ?_⟩
  · rintro _ items rfl
    obtain ⟨rfl, inner⟩ := covers
    exact adjacent_of_coversAll inner
  · rintro _ label value rfl
    obtain ⟨rfl, inner⟩ := covers
    exact span_of_covers inner
  · rintro _ items rfl
    rw [flatMap_textIn_of_coversAll covers.2 inside takes, textIn, span]
    exact (takes.slice_eq inside).symm

mutual

/-- Every part of a tree that covers what it matched does so too. -/
theorem covers_nodes : (tree : Tree) → {start stop : Cursor} → {input : Text} →
    tree.Covers start stop → start.In input →
    ∀ part ∈ tree.nodes, ∃ first last : Cursor, part.Covers first last ∧ first.In input
  | nil _, _, _, _, covers, inside, part, member
  | text _, _, _, _, covers, inside, part, member => by
    obtain rfl := mem_singleton.mp member
    exact ⟨_, _, covers, inside⟩
  | list _ items, _, _, _, covers, inside, part, member => by
    rcases mem_cons.mp member with rfl | below
    · exact ⟨_, _, covers, inside⟩
    · exact covers_nodesAll items covers.2 inside part below
  | field _ _ value, _, _, _, covers, inside, part, member => by
    rcases mem_cons.mp member with rfl | below
    · exact ⟨_, _, covers, inside⟩
    · exact covers_nodes value covers.2 inside part below

theorem covers_nodesAll : (trees : List Tree) → {start stop : Cursor} → {input : Text} →
    coversAll trees start stop → start.In input →
    ∀ part ∈ nodesAll trees, ∃ first last : Cursor, part.Covers first last ∧ first.In input
  | [], _, _, _, _, _, _, member => absurd member (not_mem_nil)
  | first :: rest, _, _, _, ⟨_, front, back⟩, inside, part, member => by
    rcases mem_append.mp member with here | there
    · exact covers_nodes first front inside part here
    · obtain ⟨_, takes⟩ := takes_of_covers first front
      exact covers_nodesAll rest back (inside.after takes) part there

end

theorem lossless_nodes (tree : Tree) {start stop : Cursor} {input : Text}
    (covers : tree.Covers start stop) (inside : start.In input) :
    ∀ part ∈ tree.nodes, part.Lossless input := by
  intro part member
  obtain ⟨_, _, covered, within⟩ := covers_nodes tree covers inside part member
  exact lossless_of_covers covered within

end Tree

/-! ## Parses -/

namespace Parser

variable {parser : Parser} {state after later : ParserState} {node : Node} {stop : Cursor}

/-- A parse of a front stores a tree that covers the front. From then on it is shown in 32-bit
words, which hold it as it is if the input is not too long for them. -/
theorem stored_of_parseFront (reachable : parser.Reachable state)
    (parsed : parser.parseFront state = (.ok (node, stop), after))
    (evolves : parser.Evolves after later) :
    ∃ tree : Tree, tree.Covers ⟨0, parser.input⟩ stop ∧ later.arena.tree node = tree.stored ∧
      (byteLength parser.input < 2 ^ 32 → tree.stored = tree) := by
  have start := Cursor.In.start parser.input
  have faithful := faithful_visit parser (Nat.le_refl parser.fuel) 0
    (state.frame.within (parser.grammar.contextName? parser.grammar.root)) {} parser.grammar.root
    start reachable.sound
  rw [(parseFront_eq_ok.mp parsed).2] at faithful
  have meaning := parser.grammar.eval_covers parser.grammar.root ⟨0, parser.input⟩
  generalize parser.grammar.eval _ _ = outcome at meaning faithful
  cases faithful.shows rfl with
  | @matched _ tree _ kept =>
    have covers := meaning tree stop rfl
    refine ⟨tree, covers, (kept.grow (evolves.grows faithful.sound)).tree_eq, fun fits => ?_⟩
    obtain ⟨_, takes⟩ := Tree.takes_of_covers tree covers
    have below := (start.after takes).offset_le
    exact Tree.stored_of_covers tree covers (by omega)

/-- A parse of a front shows a tree that covers the front, from then on. -/
theorem covers_of_parseFront (reachable : parser.Reachable state)
    (fits : byteLength parser.input < 2 ^ 32)
    (parsed : parser.parseFront state = (.ok (node, stop), after))
    (evolves : parser.Evolves after later) :
    (later.arena.tree node).Covers ⟨0, parser.input⟩ stop := by
  obtain ⟨tree, covers, shown, same⟩ := stored_of_parseFront reachable parsed evolves
  rw [shown, same fits]
  exact covers

/-- The tree of a successful parse tells the matched text without loss, in every state that the
parser goes on to. -/
theorem parse_lossless (parser : Parser) {state : ParserState} (reachable : parser.Reachable state)
    (fits : byteLength parser.input < 2 ^ 32) (node : Node) (after later : ParserState)
    (evolves : parser.Evolves after later) :
    (∀ stop, parser.parseFront state = (.ok (node, stop), after) →
      (later.arena.tree node).span = ⟨0, stop.offset⟩ ∧
        ∀ part ∈ (later.arena.tree node).nodes, part.Lossless parser.input) ∧
    (parser.parse state = (.ok node, after) →
      (later.arena.tree node).span = ⟨0, byteLength parser.input⟩ ∧
        ∀ part ∈ (later.arena.tree node).nodes, part.Lossless parser.input) := by
  have front : ∀ stop, parser.parseFront state = (.ok (node, stop), after) →
      (later.arena.tree node).span = ⟨0, stop.offset⟩ ∧
        ∀ part ∈ (later.arena.tree node).nodes, part.Lossless parser.input := by
    intro stop parsed
    have covers := covers_of_parseFront reachable fits parsed evolves
    exact ⟨Tree.span_of_covers covers, Tree.lossless_nodes _ covers (Cursor.In.start parser.input)⟩
  refine ⟨front, ?_⟩
  intro parsed
  obtain ⟨stop, matched, ended⟩ := parse_eq_ok.mp parsed
  rw [← ended]
  exact front stop matched

/-- Captured accents and a letter behind them. -/
def accents : Parser where
  grammar := ⟨#[.literal "é", .repetition 0 0 none, .capture "accents" 1, .literal "c",
    .sequence [2, 3]], 4, {}⟩
  input := ['é', 'é', 'c']

theorem accents_lossless : ∃ node after, accents.parse {} = (.ok node, after) ∧
    (after.arena.tree node).span = ⟨0, 5⟩ ∧
      ∀ part ∈ (after.arena.tree node).nodes, part.Lossless accents.input := by
  have reachable : accents.Reachable {} := ⟨{}, .refl⟩
  have matched : (Plain.visit accents.grammar accents.limits 9 0 {} 4 ⟨0, accents.input⟩).1 =
      .matched (.list ⟨0, 5⟩ [.field ⟨0, 4⟩ "accents" (.list ⟨0, 4⟩ [.text ⟨0, 2⟩, .text ⟨2, 4⟩]),
        .text ⟨4, 5⟩]) ⟨5, []⟩ := rfl
  obtain ⟨node, after, front, _⟩ :=
    reachable.sound.parseFront_of_plain (by decide) (by decide) matched
  have parsed := parse_eq_ok.mpr ⟨⟨5, []⟩, front, rfl⟩
  exact ⟨node, after, parsed,
    (parse_lossless accents reachable (by decide) node after after .refl).2 parsed⟩

end Parser

end Reflow
