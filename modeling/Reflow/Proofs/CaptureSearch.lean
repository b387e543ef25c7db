import Reflow.Proofs.LosslessTree

/-!
# Searching a tree for captures

One search stops at the first capture with a label and gives its value, the other lists every
capture it stops at. Both start inside a capture if the tree is one, look through lists and enter no
capture on the way. So the first search finds what comes first in the list of the second, and in a
tree that a parser built the captures of that list stand apart, in the order of the input
(`searches_agree`).
-/

namespace Reflow

open Text List

namespace Tree

/-- A capture that is reached from a tree through lists alone. -/
inductive Exposes : Tree → Tree → Prop where
  | here (span : Span) (label : String) (value : Tree) :
    Exposes (.field span label value) (.field span label value)
  | through {span : Span} {items : List Tree} {item capture : Tree} (member : item ∈ items)
    (inner : Exposes item capture) : Exposes (.list span items) capture

variable {capture : Tree}

/-! ## The two searches -/

mutual

theorem find?_eq_first (name : String) : (tree : Tree) →
    tree.find? name = (tree.collect.find? (·.label? == some name)).map body
  | nil _ | text _ => by simp only [find?, collect, List.find?_nil, Option.map_none]
  | list _ items => by
    rw [find?, collect]
    exact findIn?_eq_first name items
  | field span label value => by
    rw [find?, collect, List.find?_singleton]
    by_cases same : label = name <;> simp [label?, body, same]

theorem findIn?_eq_first (name : String) : (trees : List Tree) →
    findIn? name trees = ((collectAll trees).find? (·.label? == some name)).map body
  | [] => by simp only [findIn?, collectAll, List.find?_nil, Option.map_none]
  | first :: rest => by
    rw [findIn?, collectAll, List.find?_append, Option.map_or, ← find?_eq_first name first,
      ← findIn?_eq_first name rest]
    -- Both searches go on behind the first tree only if nothing was found in it.
    cases first.find? name <;> rfl

end

mutual

theorem mem_collect_iff : (tree : Tree) → (capture ∈ tree.collect ↔ tree.Exposes capture)
  | nil _ | text _ => by
    rw [collect]
    exact ⟨fun impossible => absurd impossible not_mem_nil, by rintro ⟨⟩⟩
  | list _ items => by
    rw [collect, mem_collectAll_iff items]
    constructor
    · rintro ⟨item, member, inner⟩
      exact .through member inner
    · rintro ⟨⟩
      next item member inner => exact ⟨item, member, inner⟩
  | field span label value => by
    rw [collect, mem_singleton]
    constructor
    · rintro rfl
      exact .here span label value
    · rintro ⟨⟩
      rfl

theorem mem_collectAll_iff : (trees : List Tree) →
    (capture ∈ collectAll trees ↔ ∃ tree ∈ trees, tree.Exposes capture)
  | [] => by simp [collectAll]
  | first :: rest => by
    rw [collectAll, mem_append, mem_collect_iff first, mem_collectAll_iff rest, exists_mem_cons_iff]

end

mutual

/-- Captures are listed depth first. -/
theorem collect_sublist_nodes : (tree : Tree) → tree.collect.Sublist tree.nodes
  | nil _ | text _ => by simp [collect]
  | list _ items => by
    rw [collect, nodes]
    exact (collectAll_sublist_nodesAll items).cons _
  | field _ _ value => by
    rw [collect, nodes]
    exact (nil_sublist value.nodes).cons_cons _

theorem collectAll_sublist_nodesAll : (trees : List Tree) →
    (collectAll trees).Sublist (nodesAll trees)
  | [] => by simp [collectAll]
  | first :: rest => by
    rw [collectAll, nodesAll]
    exact (collect_sublist_nodes first).append (collectAll_sublist_nodesAll rest)

end

theorem captures_sublist_nodes (tree : Tree) : tree.captures.Sublist tree.nodes := by
  rw [captures]
  cases tree with
  | field span label value =>
    rw [body, nodes]
    exact (collect_sublist_nodes value).cons _
  | _ => exact collect_sublist_nodes _

/-! ## The order of captures -/

/-- Trees within a span, each of which ends before the next one starts or where it starts. -/
structure InOrder (span : Span) (trees : List Tree) : Prop where
  inside : ∀ tree ∈ trees, span.start ≤ tree.span.start ∧ tree.span.start ≤ tree.span.stop ∧
    tree.span.stop ≤ span.stop
  apart : trees.Pairwise fun earlier later => earlier.span.stop ≤ later.span.start

variable {tree : Tree} {start middle stop : Cursor}

namespace InOrder

theorem nil (span : Span) : InOrder span [] := ⟨by simp, .nil⟩

theorem single (covers : tree.Covers start stop) : InOrder (start.spanTo stop) [tree] where
  inside := by
    intro other member
    obtain ⟨_, takes⟩ := takes_of_covers tree covers
    rw [mem_singleton.mp member, span_of_covers covers]
    exact ⟨Nat.le_refl _, takes.offset_mono, Nat.le_refl _⟩
  apart := pairwise_singleton _ _

/-- What lies in order before a place and what lies in order behind it lie in order. -/
theorem append {front back : List Tree} (first : InOrder (start.spanTo middle) front)
    (second : InOrder (middle.spanTo stop) back) (before : start.offset ≤ middle.offset)
    (behind : middle.offset ≤ stop.offset) : InOrder (start.spanTo stop) (front ++ back) where
  inside := by
    intro tree member
    rcases mem_append.mp member with here | there
    · obtain ⟨low, ordered, high⟩ := first.inside tree here
      exact ⟨low, ordered, Nat.le_trans high behind⟩
    · obtain ⟨low, ordered, high⟩ := second.inside tree there
      exact ⟨Nat.le_trans before low, ordered, high⟩
  apart := by
    refine pairwise_append.mpr ⟨first.apart, second.apart, ?_⟩
    intro earlier here later there
    exact Nat.le_trans (first.inside earlier here).2.2 (second.inside later there).1

end InOrder

mutual

theorem inOrder_collect : (tree : Tree) → {start stop : Cursor} → tree.Covers start stop →
    InOrder (start.spanTo stop) tree.collect
  | nil _, _, _, _ | text _, _, _, _ => by
    rw [collect]
    exact .nil _
  | list _ items, _, _, covers => by
    rw [collect]
    exact inOrder_collectAll items covers.2
  | field _ _ _, _, _, covers => by
    rw [collect]
    exact .single covers

theorem inOrder_collectAll : (trees : List Tree) → {start stop : Cursor} →
    coversAll trees start stop → InOrder (start.spanTo stop) (collectAll trees)
  | [], _, _, _ => by
    rw [collectAll]
    exact .nil _
  | first :: rest, _, _, ⟨_, front, back⟩ => by
    obtain ⟨_, before⟩ := takes_of_covers first front
    obtain ⟨_, behind⟩ := takes_of_coversAll rest back
    rw [collectAll]
    -- The place where the first tree ends keeps its captures apart from the others.
    exact (inOrder_collect first front).append (inOrder_collectAll rest back)
      before.offset_mono behind.offset_mono

end

/-- The captures of a tree stand apart within what it covers. -/
theorem inOrder_captures (covers : tree.Covers start stop) : InOrder tree.span tree.captures := by
  rw [span_of_covers covers, captures]
  cases tree with
  | field span label value => exact inOrder_collect value covers.2
  | _ => exact inOrder_collect _ covers

end Tree

/-- The two searches agree. The value found under a label is that of the first capture with the
label among those listed, and nothing is found if there is none. Listed are, depth first, the
captures that are reached through lists alone; in a tree that a parser built, those of every part
lie within the part and in the order of the input, and no two of them overlap. Nodes hold the spans
of that tree in 32-bit words, so as they are if the input is not too long for them. -/
theorem searches_agree :
    (∀ (tree : Tree) (name : String),
      tree.attr? name = (tree.captures.find? (·.label? == some name)).map Tree.body) ∧
    (∀ tree : Tree, tree.captures.Sublist tree.nodes ∧
      ∀ capture, capture ∈ tree.captures ↔ tree.body.Exposes capture) ∧
    ∀ (parser : Parser) (state after later : ParserState) (node : Node),
      parser.Reachable state → parser.Evolves after later →
      (∃ stop, parser.parseFront state = (.ok (node, stop), after)) ∨
        parser.parse state = (.ok node, after) →
      ∃ tree : Tree, later.arena.tree node = tree.stored ∧
        (byteLength parser.input < 2 ^ 32 → later.arena.tree node = tree) ∧
        ∀ part ∈ tree.nodes, part.span.Cuts parser.input ∧
          Tree.InOrder part.span part.captures := by
  refine ⟨fun tree name => Tree.find?_eq_first name tree.body, fun tree =>
    ⟨tree.captures_sublist_nodes, fun capture => Tree.mem_collect_iff tree.body⟩, ?_⟩
  intro parser state after later node reachable evolves produced
  obtain ⟨stop, parsed⟩ : ∃ stop, parser.parseFront state = (.ok (node, stop), after) := by
    rcases produced with front | whole
    · exact front
    · obtain ⟨stop, front, _⟩ := Parser.parse_eq_ok.mp whole
      exact ⟨stop, front⟩
  obtain ⟨tree, covers, shown, same⟩ := Parser.stored_of_parseFront reachable parsed evolves
  refine ⟨tree, shown, fun fits => shown.trans (same fits), fun part member => ?_⟩
  obtain ⟨first, last, covered, inside⟩ :=
    Tree.covers_nodes tree covers (.start parser.input) part member
  exact ⟨(Tree.lossless_of_covers covered inside).cuts, Tree.inOrder_captures covered⟩

/-- A capture within a capture, one that consumed nothing, and two in a repetition. -/
def marked : Parser where
  grammar := ⟨#[.literal "a", .capture "name" 0, .capture "outer" 1, .literal "!",
    .repetition 3 0 (some 1), .capture "mark" 4, .literal "1", .capture "digit" 6,
    .repetition 7 0 none, .sequence [2, 5, 8]], 9, {}⟩
  input := ['a', '1', '1']

theorem marked_searches_agree : ∃ node after, marked.parse {} = (.ok node, after) ∧
    (after.arena.tree node).attr? "name" = none ∧
    (after.arena.tree node).attr? "digit" = some (.text ⟨1, 2⟩) ∧
    (after.arena.tree node).captures.map Tree.span = [⟨0, 1⟩, ⟨1, 1⟩, ⟨1, 2⟩, ⟨2, 3⟩] ∧
    ∀ part ∈ (after.arena.tree node).nodes, part.span.Cuts marked.input ∧
      Tree.InOrder part.span part.captures := by
  have reachable : marked.Reachable {} := ⟨{}, .refl⟩
  have matched : (Plain.visit marked.grammar marked.limits 9 0 {} 9 ⟨0, marked.input⟩).1 =
      .matched (.list ⟨0, 3⟩ [.field ⟨0, 1⟩ "outer" (.field ⟨0, 1⟩ "name" (.text ⟨0, 1⟩)),
        .field ⟨1, 1⟩ "mark" (.list ⟨1, 1⟩ []), .list ⟨1, 3⟩ [.field ⟨1, 2⟩ "digit" (.text ⟨1, 2⟩),
          .field ⟨2, 3⟩ "digit" (.text ⟨2, 3⟩)]]) ⟨3, []⟩ := rfl
  obtain ⟨node, after, front, kept⟩ :=
    reachable.sound.parseFront_of_plain (by decide) (by decide) matched
  have parsed := Parser.parse_eq_ok.mpr ⟨⟨3, []⟩, front, rfl⟩
  obtain ⟨named, _, ordered⟩ := searches_agree
  obtain ⟨tree, _, shown, inOrder⟩ :=
    ordered marked {} after after node reachable .refl (.inr parsed)
  refine ⟨node, after, parsed, ?_, ?_, ?_, shown (by decide) ▸ inOrder⟩
  · rw [named, kept.tree_eq]
    rfl
  · rw [named, kept.tree_eq]
    rfl
  · rw [kept.tree_eq]
    rfl

end Reflow
