import Reflow.Proofs.BlockContent
import Reflow.Proofs.GuardRails
import Reflow.Proofs.LosslessTree

/-!
# Captures cover the document

The roots of the grammars of all kinds of text capture everything they read. So the captures of a
text lie side by side and make it up, every one of them holds one element of the document, and the
label of a capture names the kind of its element (`readWith_covers`).
-/

namespace Reflow

open Text List Part

/-! ## Captures of parts and of their trees -/

namespace Part

mutual

/-- No more is captured than was read. -/
theorem length_collect_le : (part : Part) →
    (part.collect.flatMap chars).length ≤ part.chars.length
  | nil | text _ | field _ _ => by simp [collect]
  | list items => by
    rw [collect, chars]
    exact length_collectAll_le items

theorem length_collectAll_le : (parts : List Part) →
    ((collectAll parts).flatMap chars).length ≤ (charsAll parts).length
  | [] => by simp [collectAll]
  | first :: rest => by
    rw [collectAll, charsAll, flatMap_append, length_append, length_append]
    exact Nat.add_le_add (length_collect_le first) (length_collectAll_le rest)

end

theorem treesAt_append (offset : Nat) (first second : List Part) :
    treesAt offset (first ++ second) =
      treesAt offset first ++ treesAt (offset + byteLength (charsAll first)) second := by
  induction first generalizing offset with
  | nil => simp only [nil_append, treesAt, charsAll, byteLength_nil, Nat.add_zero]
  | cons part first ih =>
    simp only [cons_append, treesAt, charsAll, byteLength_append, ih, Nat.add_assoc]

mutual

/-- Where all of a part is captured, the captures of its tree stand one behind the other. -/
theorem collect_treeAt : (part : Part) → part.collect.flatMap chars = part.chars →
    (offset : Nat) → (part.treeAt offset).collect = treesAt offset part.collect
  | nil, _, _ | text _, _, _ | field _ _, _, _ => by
    simp only [treeAt, Tree.collect, collect, treesAt]
  | list items, whole, offset => by
    simp only [treeAt, Tree.collect, collect]
    rw [collect, chars] at whole
    exact collectAll_treesAt items whole offset

theorem collectAll_treesAt : (parts : List Part) →
    (collectAll parts).flatMap chars = charsAll parts → (offset : Nat) →
    Tree.collectAll (treesAt offset parts) = treesAt offset (collectAll parts)
  | [], _, _ => by simp only [treesAt, Tree.collectAll, collectAll]
  | first :: rest, whole, offset => by
    rw [collectAll, charsAll, flatMap_append] at whole
    -- Neither half captures more than it has, so both capture all they have.
    have lengths := congrArg List.length whole
    rw [length_append, length_append] at lengths
    have front := length_collect_le first
    have back := length_collectAll_le rest
    obtain ⟨here, there⟩ := append_inj whole (by omega)
    rw [treesAt, Tree.collectAll, collectAll, treesAt_append, collect_treeAt first here,
      collectAll_treesAt rest there, charsAll_eq_flatMap first.collect, here]

end

theorem map_label?_treesAt (parts : List Part) (offset : Nat) :
    (treesAt offset parts).map Tree.label? = parts.map label? := by
  induction parts generalizing offset with
  | nil => simp only [treesAt, map_nil]
  | cons part parts ih => simp only [treesAt, map_cons, label?_treeAt, ih]

theorem adjacent_treesAt (parts : List Part) (offset : Nat) :
    Tree.Adjacent offset (treesAt offset parts) (offset + byteLength (charsAll parts)) := by
  induction parts generalizing offset with
  | nil => simp only [treesAt, Tree.Adjacent, charsAll, byteLength_nil, Nat.add_zero]
  | cons part parts ih =>
    have later := ih (offset + byteLength part.chars)
    rw [Nat.add_assoc] at later
    simp only [treesAt, Tree.Adjacent, charsAll, byteLength_append, span_treeAt]
    exact ⟨trivial, later⟩

end Part

/-- Captures that lie side by side and make up a text, every one of them under one of some
labels. -/
structure Captured (labels : List String) (text : Text) (captures : List Tree) : Prop where
  adjacent : Tree.Adjacent 0 captures (byteLength text)
  whole : captures.flatMap (·.textIn text) = text
  listed : ∀ capture ∈ captures, ∃ label ∈ labels, capture.label? = some label

/-- What is captured of a part is captured in its tree. -/
theorem Part.Labelled.captured {labels : List String} {parts : List Part}
    (labelled : (list parts).Labelled labels) :
    Captured labels (list parts).chars ((list parts).treeAt 0).captures := by
  have stands : StandsAt (list parts).chars (list parts).chars 0 := .whole _
  have captures : ((list parts).treeAt 0).captures =
      treesAt 0 (list parts).collect := by
    rw [Tree.captures, body_treeAt]
    exact collect_treeAt _ labelled.whole 0
  have texts : ((list parts).treeAt 0).captures.map (·.textIn (list parts).chars) =
      (list parts).captures.map chars :=
    map_captures (fun _ _ => textIn_treeAt) stands
  have labelsEq : ((list parts).treeAt 0).captures.map Tree.label? =
      (list parts).captures.map label? :=
    map_captures (fun part offset _ => label?_treeAt part offset) stands
  refine ⟨?_, ?_, ?_⟩
  · have beside := adjacent_treesAt (list parts).collect 0
    rwa [← captures, charsAll_eq_flatMap, labelled.whole, Nat.zero_add] at beside
  · rw [flatMap_def, texts, ← flatMap_def]
    exact labelled.whole
  · intro capture member
    have found : capture.label? ∈ (list parts).captures.map label? := by
      rw [← labelsEq]
      exact mem_map_of_mem member
    obtain ⟨piece, inside, same⟩ := mem_map.mp found
    obtain ⟨label, among, labelledSo⟩ := labelled.listed piece inside
    exact ⟨label, among, same.symm.trans labelledSo⟩

/-! ## The roots of the grammars -/

variable {text : Text} {tree : Tree}

theorem Reader.Labels.list_of_repetition {reader : Reader} {names : List String}
    (each : reader.Labels names) {least : Nat} {most : Option Nat} {rest : Text}
    {part : Part} (read : reader.repetition least most text = some (part, rest)) :
    ∃ parts, part = .list parts ∧ part.Labelled names := by
  have labelled := each.repetition least most read
  unfold Reader.repetition at read
  dsimp only at read
  split at read
  · cases read
  · cases read
    exact ⟨_, rfl, labelled⟩

namespace TextKind

open Document

def labels : TextKind → List String
  | blockComment => "start" :: Block.elementLabels ++ ["end"]
  | lineComment => ["separator", "text"]
  | prose => ["separator", "list_items", "text"]

/-- The root captures all that it reads. -/
theorem labelled_root (kind : TextKind) {rest : Text} {part : Part}
    (read : readRule kind.rules (kind.levels + 1) kind.root text = some (part, rest)) :
    ∃ parts, part = .list parts ∧ part.Labelled kind.labels := by
  cases kind with
  | blockComment =>
    have readSo : readRule Block.rules (0 + 6) "block_comment" text = some (part, rest) := read
    obtain ⟨first, body, last, _, _, _, bodyRead, _, rfl⟩ := Block.read_root_cases readSo
    have labelled := Block.labels_body _ bodyRead
    have among : ∀ label ∈ Block.elementLabels, label ∈ blockComment.labels := fun label member =>
      mem_cons_of_mem _ (mem_append_left _ member)
    refine ⟨_, rfl, labelled_list ?_⟩
    refine forall_mem_cons.mpr ⟨labelled_field (by decide) _, ?_⟩
    refine forall_mem_cons.mpr ⟨⟨labelled.whole, fun piece member => ?_⟩, ?_⟩
    · obtain ⟨label, listed, same⟩ := labelled.listed piece member
      exact ⟨label, among label listed, same⟩
    · exact forall_mem_singleton.mpr (labelled_field (by decide) _)
  | lineComment =>
    have readSo : readRule LineComment.rules (0 + 4) "line_comment" text = some (part, rest) :=
      read
    rw [LineComment.readRule_root] at readSo
    exact (Block.labels_captured _ ["separator", "text"]).list_of_repetition readSo
  | prose =>
    have readSo : readRule Prose.rules (0 + 4) "paragraphs" text = some (part, rest) := read
    rw [Prose.readRule_root] at readSo
    exact (Block.labels_captured _ ["separator", "list_items", "text"]).list_of_repetition readSo

/-- The tree of a text is that of what the root reads. -/
theorem exists_part (kind : TextKind) (parsed : readWith kind.grammar id text = .ok tree) :
    ∃ part, readRule kind.rules (kind.levels + 1) kind.root text = some (part, []) ∧
      tree = part.treeAt 0 := by
  obtain ⟨found, same⟩ := kind.exists_grammar
  rw [kind.grammar_eq] at same parsed
  obtain ⟨_, part, read, rfl⟩ := (readWith_build same kind.compiles kind.root_eq kind.closed
    kind.few_levels).mp parsed
  exact ⟨part, read, rfl⟩

theorem captured {kind : TextKind} (parsed : readWith kind.grammar id text = .ok tree) :
    Captured kind.labels text tree.captures := by
  obtain ⟨part, read, rfl⟩ := kind.exists_part parsed
  have whole := (splits_readRule kind.rules (kind.levels + 1) kind.root).split read
  obtain ⟨parts, rfl, labelled⟩ := kind.labelled_root read
  rw [append_nil] at whole
  rw [whole]
  exact labelled.captured

end TextKind

/-! ## Elements -/

namespace Document

variable {α : Type} {grammar : Except GrammarFault Grammar} {capture : Tree}

/-- Whatever is read off a tree, it is the tree of the text. -/
theorem readWith_eq_map (grammar : Except GrammarFault Grammar) (read : Tree → α)
    (text : Text) : readWith grammar read text = (readWith grammar id text).map read := by
  unfold readWith
  cases grammar with
  | error fault => rfl
  | ok grammar =>
    dsimp only
    cases grammar.parse text <;> rfl

theorem readWith_of_tree (parsed : readWith grammar id text = .ok tree) (read : Tree → α) :
    readWith grammar read text = .ok (read tree) := by
  rw [readWith_eq_map, parsed]
  rfl

theorem exists_tree_of_readWith {read : Tree → α} {value : α}
    (parsed : readWith grammar read text = .ok value) :
    ∃ tree, readWith grammar id text = .ok tree := by
  rw [readWith_eq_map] at parsed
  cases found : readWith grammar id text with
  | error error =>
    rw [found] at parsed
    cases parsed
  | ok tree => exact ⟨tree, rfl⟩

/-- A capture gives an element, under the label that names what the element is. -/
def Yields {α : Type} (read : Tree → Option α) (label : α → String) (capture : Tree) (item : α) :
    Prop :=
  read capture = some item ∧ capture.label? = some (label item)

/-- If every capture gives an element, these are the elements that are read. -/
theorem forall₂_yields {read : Tree → Option α} {label : α → String} {captures : List Tree}
    (each : ∀ capture ∈ captures, ∃ item, Yields read label capture item) :
    Forall₂ (Yields read label) captures (captures.filterMap read) := by
  induction captures with
  | nil => exact .nil
  | cons capture captures ih =>
    obtain ⟨⟨item, yielded⟩, later⟩ := forall_mem_cons.mp each
    rw [filterMap_cons_some yielded.1]
    exact .cons yielded (ih later)

def LineComment.Item.label : LineComment.Item → String
  | .separator _ => "separator"
  | .paragraph _ => "text"

def Prose.Item.label : Prose.Item → String
  | .separator _ => "separator"
  | .listItems _ => "list_items"
  | .text _ => "text"

/-- The label of an element of a block comment: that of its kind, except that a run of parameters
of both kinds has one of its own. -/
def BlockItem.label : BlockItem → String
  | .separator _ => "separator"
  | .paragraph (.parameters _) => "parameters"
  | .paragraph content => content.kind.label

theorem LineComment.exists_yields
    (listed : ∃ label ∈ TextKind.lineComment.labels, capture.label? = some label) :
    ∃ item, Yields (LineComment.item? text) LineComment.Item.label capture item := by
  obtain ⟨label, among, same⟩ := listed
  simp only [TextKind.labels, mem_cons, not_mem_nil, or_false] at among
  rcases among with rfl | rfl
  · exact ⟨.separator _, by rw [LineComment.item?, same]; rfl, same⟩
  · exact ⟨.paragraph _, by rw [LineComment.item?, same]; rfl, same⟩

theorem Prose.exists_yields
    (listed : ∃ label ∈ TextKind.prose.labels, capture.label? = some label) :
    ∃ item, Yields (Prose.item? text) Prose.Item.label capture item := by
  obtain ⟨label, among, same⟩ := listed
  simp only [TextKind.labels, mem_cons, not_mem_nil, or_false] at among
  rcases among with rfl | rfl | rfl
  · exact ⟨.separator _, by rw [Prose.item?, same]; rfl, same⟩
  · exact ⟨.listItems _, by rw [Prose.item?, same]; rfl, same⟩
  · exact ⟨.text _, by rw [Prose.item?, same]; rfl, same⟩

namespace Block

theorem label_paragraph (text : Text) (kind : Construct) (tree : Tree) :
    (BlockItem.paragraph (paragraph text kind tree)).label = kind.label := by
  cases kind <;> rfl

theorem item?_of_kind {label : String} {kind : Construct}
    (named : Construct.ofLabel? label = some kind) (same : capture.label? = some label) :
    item? text capture = some (.paragraph (paragraph text kind capture)) := by
  have unnamed : ∀ label ∈ ["start", "end", "separator", "parameters"],
      Construct.ofLabel? label = none := by decide
  have namedNot : ∀ label ∈ ["start", "end", "separator", "parameters"],
      Construct.ofLabel? label ≠ some kind := fun label member => by
    rw [unnamed label member]
    exact nofun
  unfold item?
  rw [same]
  split
  · next first =>
    cases first
    exact absurd named (namedNot _ (by simp))
  · next first =>
    cases first
    exact absurd named (namedNot _ (by simp))
  · next first =>
    cases first
    exact absurd named (namedNot _ (by simp))
  · next first =>
    cases first
    exact absurd named (namedNot _ (by simp))
  · next first =>
    cases first
    rw [named, Option.map_some]
  · next first => cases first

theorem exists_yields (listed : ∃ label ∈ elementLabels, capture.label? = some label) :
    ∃ item, Yields (item? text) BlockItem.label capture item := by
  obtain ⟨label, among, same⟩ := listed
  have named : ∀ label ∈ elementLabels, label = "separator" ∨ label = "parameters" ∨
      (Construct.ofLabel? label).isSome := by decide
  rcases named label among with rfl | rfl | known
  · exact ⟨.separator _, by rw [item?, same]; rfl, same⟩
  · exact ⟨.paragraph (.parameters _), by rw [item?, same]; rfl, same⟩
  · obtain ⟨kind, found⟩ := Option.isSome_iff_exists.mp known
    have labelEq : kind.label = label := by simpa using List.find?_some found
    refine ⟨_, item?_of_kind found same, ?_⟩
    rw [label_paragraph, labelEq, same]

end Block

end Document

/-! ## Documents -/

open Document

/-- The elements that are read off the captures of a text: one for each capture and in the same
order, the opening and the closing line of a block comment apart. -/
def Extracts (text : Text) (captures : List Tree) : TextKind → Prop
  | .blockComment => ∃ comment first body last, Block.parse text = .ok comment ∧
      captures = first :: (body ++ [last]) ∧
      first.label? = some "start" ∧ comment.start = first.textIn text ∧
      last.label? = some "end" ∧ comment.stop = last.textIn text ∧
      Forall₂ (Yields (Block.item? text) BlockItem.label) body comment.items
  | .lineComment => ∃ items, LineComment.parse text = .ok items ∧
      Forall₂ (Yields (LineComment.item? text) LineComment.Item.label) captures items
  | .prose => ∃ items, Prose.parse text = .ok items ∧
      Forall₂ (Yields (Prose.item? text) Prose.Item.label) captures items

/-- The captures of a block comment are the opening line, the elements and the closing line. -/
theorem Block.exists_frame (parsed : readWith Block.grammar id text = .ok tree) :
    ∃ first body last, tree.captures = first :: (body ++ [last]) ∧ first.label? = some "start" ∧
      last.label? = some "end" ∧
      ∀ capture ∈ body, ∃ label ∈ Block.elementLabels, capture.label? = some label := by
  have found : ∃ part, readRule Block.rules (0 + 6) "block_comment" text = some (part, []) ∧
      tree = part.treeAt 0 := TextKind.blockComment.exists_part parsed
  obtain ⟨part, read, rfl⟩ := found
  obtain ⟨_, _, labelled⟩ := TextKind.blockComment.labelled_root read
  obtain ⟨first, body, last, _, _, _, bodyRead, _, rfl⟩ := Block.read_root_cases read
  have captures : ((Block.commentPart first body last).treeAt 0).captures =
      treesAt 0 (.field "start" first :: (body.collect ++ [.field "end" last])) := by
    rw [← Block.captures_comment, Tree.captures, body_treeAt]
    exact collect_treeAt _ labelled.whole 0
  rw [treesAt, treesAt_append, treesAt, treesAt] at captures
  refine ⟨_, _, _, captures, label?_treeAt _ _, label?_treeAt _ _, ?_⟩
  intro capture member
  have listed : capture.label? ∈ body.collect.map label? := by
    rw [← map_label?_treesAt body.collect]
    exact mem_map_of_mem member
  obtain ⟨piece, inside, same⟩ := mem_map.mp listed
  obtain ⟨label, among, labelledSo⟩ := (Block.labels_body _ bodyRead).listed piece inside
  exact ⟨label, among, same.symm.trans labelledSo⟩

theorem Block.ofTree_eq {first last : Tree} {body : List Tree}
    (captures : tree.captures = first :: (body ++ [last])) (opens : first.label? = some "start")
    (closes : last.label? = some "end")
    (inside : ∀ capture ∈ body, ∃ label ∈ Block.elementLabels, capture.label? = some label) :
    Block.ofTree text tree =
      ⟨first.textIn text, body.filterMap (Block.item? text), last.textIn text⟩ := by
  have noEnd : body.find? (·.label? == some "end") = none := by
    refine List.find?_eq_none.mpr fun capture member found => ?_
    obtain ⟨label, among, same⟩ := inside capture member
    rw [same, beq_iff_eq, Option.some.injEq] at found
    subst found
    exact absurd among (by decide)
  have firstItem : Block.item? text first = none := by rw [Block.item?, opens]; rfl
  have lastItem : Block.item? text last = none := by rw [Block.item?, closes]; rfl
  simp [Block.ofTree, Block.captureText, captures, opens, closes, noEnd, firstItem, lastItem]

theorem Block.extracts (parsed : readWith Block.grammar id text = .ok tree) :
    Extracts text tree.captures .blockComment := by
  obtain ⟨first, body, last, captures, opens, closes, inside⟩ := Block.exists_frame parsed
  have comment := readWith_of_tree parsed (Block.ofTree text)
  rw [Block.ofTree_eq captures opens closes inside] at comment
  refine ⟨_, first, body, last, comment, captures, opens, rfl, closes, rfl, ?_⟩
  exact forall₂_yields fun capture member => Block.exists_yields (inside capture member)

/-- The captures of a text that is accepted lie side by side and make it up, and every one of them
holds one element of the document, of the kind that its label names. -/
theorem readWith_covers {kind : TextKind} {text : Text} {tree : Tree}
    (parsed : readWith kind.grammar id text = .ok tree) :
    Tree.Adjacent 0 tree.captures (byteLength text) ∧
      tree.captures.flatMap (·.textIn text) = text ∧ Extracts text tree.captures kind := by
  have captured := TextKind.captured parsed
  refine ⟨captured.adjacent, captured.whole, ?_⟩
  cases kind with
  | blockComment => exact Block.extracts parsed
  | lineComment =>
    refine ⟨_, readWith_of_tree parsed _, forall₂_yields fun capture member => ?_⟩
    exact LineComment.exists_yields (captured.listed capture member)
  | prose =>
    refine ⟨_, readWith_of_tree parsed _, forall₂_yields fun capture member => ?_⟩
    exact Prose.exists_yields (captured.listed capture member)

/-- A comment with a run of parameters, a separator and a result. -/
theorem mixedComment_covers :
    ∃ tree, readWith Block.grammar id Block.mixedComment = .ok tree ∧
      Tree.Adjacent 0 tree.captures (byteLength Block.mixedComment) ∧
      tree.captures.flatMap (·.textIn Block.mixedComment) = Block.mixedComment ∧
      Extracts Block.mixedComment tree.captures .blockComment := by
  obtain ⟨tree, parsed⟩ := exists_tree_of_readWith Block.parse_mixedComment
  have accepted : readWith TextKind.blockComment.grammar id Block.mixedComment = .ok tree := parsed
  exact ⟨tree, parsed, readWith_covers accepted⟩

end Reflow
