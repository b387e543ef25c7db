import Reflow.Document.Format
import Reflow.Proofs.RestoredElements

/-!
# Formatting keeps the content of a block comment

Besides white space, a formatted block comment holds what the comment held, without the parameters
that go under the policy and with one spelling for the marker of a returned value
(`content_formatLines`).
-/

namespace Reflow.Document.Block

open Text Layout Reflow.Expr List

/-! ## What is kept of a text -/

/-- The content of the lines of a text between its first and its last line. -/
def content (text : Text) : Text := (((lines text).drop 1).dropLast).flatMap bare

def keptEntry (policy : UnnamedPolicy) (input : Text) (part : Tree) : Text :=
  match entryAt? input part with
  | some entry => if entry.stays policy then part.textIn input else []
  | none => []

/-- The text of a capture of a comment without the parameters that go under a policy, and with one
spelling for the marker of a returned value. -/
def kept (policy : UnnamedPolicy) (input : Text) (part : Tree) : Text :=
  match item? input part with
  | some (.paragraph (.contiguous .returns _)) => respelled (part.textIn input)
  | some (.paragraph (.parameters _)) => part.captures.flatMap (keptEntry policy input)
  | _ => part.textIn input

/-! ## Lines -/

theorem lines_of_unbroken {line : Text} (unbroken : '\n' ∉ line) (someChar : line ≠ []) :
    lines line = [line] := by
  induction line with
  | nil => exact absurd rfl someChar
  | cons c line ih =>
    have other : ¬ c = '\n' := fun same => unbroken (same ▸ mem_cons_self)
    rw [lines, if_neg other]
    cases line with
    | nil => rfl
    | cons d line =>
      rw [ih (fun member => unbroken (mem_cons_of_mem _ member)) (cons_ne_nil _ _)]
      rfl

theorem lines_unlines {given : List Text} (unbroken : Unbroken given) (tail : Text) :
    lines (unlines given ++ tail) = given.map (· ++ ['\n']) ++ lines tail := by
  induction given with
  | nil => rfl
  | cons line given ih =>
    rw [unlines_cons, append_assoc, cons_append,
      lines_line _ (unbroken line mem_cons_self), ih unbroken.tail]
    rfl

section Frames

variable {opening closing ending : Text} (cleanOpening : '\n' ∉ opening)
  (cleanClosing : '\n' ∉ closing) (someChar : closing ≠ []) (ends : ending = [] ∨ ending = ['\n'])

include cleanOpening cleanClosing someChar ends

/-- The lines of a body between an opening and a closing line. -/
theorem lines_frame {given : List Text} (unbroken : Unbroken given) :
    lines (opening ++ '\n' :: (unlines given ++ (closing ++ ending))) =
      (opening ++ ['\n']) :: (given.map (· ++ ['\n']) ++ [closing ++ ending]) := by
  have last : lines (closing ++ ending) = [closing ++ ending] := by
    rcases ends with rfl | rfl
    · rw [append_nil]
      exact lines_of_unbroken cleanClosing someChar
    · exact lines_line [] cleanClosing
  rw [lines_line _ cleanOpening, lines_unlines unbroken, last]

/-- A body is all of the content between an opening and a closing line. -/
theorem content_frame {body held : Text} (holds : Holds body held) :
    content (opening ++ '\n' :: (body ++ (closing ++ ending))) = held ∧
      (lines (opening ++ '\n' :: (body ++ (closing ++ ending)))).head? = some (opening ++ ['\n']) ∧
      (lines (opening ++ '\n' :: (body ++ (closing ++ ending)))).getLast? =
        some (closing ++ ending) := by
  obtain ⟨given, unbroken, rfl, rfl⟩ := holds
  have all := lines_frame cleanOpening cleanClosing someChar ends unbroken
  refine ⟨?_, ?_, ?_⟩
  · rw [content, all, drop_one, tail_cons, dropLast_concat, flatMap_map]
    simp only [bare_newline]
  · rw [all]
    rfl
  · rw [all, ← cons_append, List.getLast?_concat]

end Frames

variable {part : Part}

/-! ## Trees -/

section Trees

variable {text : Text}

def keptPart (policy : UnnamedPolicy) (part : Part) : Text :=
  match pickPiece part with
  | some piece => keptPiece policy piece
  | none => part.chars

theorem keptEntry_treeAt (policy : UnnamedPolicy) (part : Part) (offset : Nat)
    (stands : StandsAt part.chars text offset) :
    keptEntry policy text (part.treeAt offset) =
      ((pickEntry part).map fun entry => if entry.2.stays policy then entry.1 else []).getD [] := by
  rw [keptEntry, entryAt?_treeAt part offset stands, Part.textIn_treeAt stands, pickEntry]
  cases entryOfPart? part <;> rfl

theorem flatMap_keptEntry {offset : Nat} (policy : UnnamedPolicy)
    (stands : StandsAt part.chars text offset) :
    (part.treeAt offset).captures.flatMap (keptEntry policy text) =
      (part.body.view pickEntry).flatMap fun entry =>
        if entry.2.stays policy then entry.1 else [] := by
  rw [flatMap_def, Part.map_captures (keptEntry_treeAt policy) stands, ← flatMap_def,
    Part.captures, Part.view]
  induction part.body.collect with
  | nil => rfl
  | cons inner parts ih =>
    rw [flatMap_cons, ih]
    cases found : pickEntry inner with
    | none => rw [filterMap_cons_none found]; rfl
    | some entry => rw [filterMap_cons_some found]; rfl

theorem paragraphOfPart_ne_parameters (kind : Construct) (part : Part) (entries : List RunEntry) :
    paragraphOfPart kind part ≠ .parameters entries := by
  unfold paragraphOfPart
  split
  · exact nofun
  · exact nofun
  · exact nofun
  · exact ofLines_ne_parameters _ _ _

/-- A capture holds a run of parameters or another element, with all of its text. -/
theorem pickPiece_cases {piece : Piece} (found : pickPiece part = some piece) :
    (∃ item, piece = .plain part.chars item ∧ ∀ entries, item ≠ .paragraph (.parameters entries)) ∨
      piece = .run part.chars (part.body.view pickEntry) := by
  unfold pickPiece at found
  split at found
  · cases found
  · cases found
  · cases found
    exact .inl ⟨_, rfl, nofun⟩
  · cases found
    exact .inr rfl
  · obtain ⟨kind, _, rfl⟩ := Option.map_eq_some_iff.mp found
    refine .inl ⟨_, rfl, fun entries same => ?_⟩
    exact paragraphOfPart_ne_parameters _ _ _ (BlockItem.paragraph.inj same)
  · cases found

/-- What is kept of a tree is what is kept of its part. -/
theorem kept_treeAt (policy : UnnamedPolicy) (part : Part) (offset : Nat)
    (stands : StandsAt part.chars text offset) :
    kept policy text (part.treeAt offset) = keptPart policy part := by
  rw [kept, keptPart, item?_treeAt part offset stands, Part.textIn_treeAt stands,
    flatMap_keptEntry policy stands]
  cases found : pickPiece part with
  | none => rfl
  | some piece =>
    rcases pickPiece_cases found with ⟨item, rfl, other⟩ | rfl
    · rw [Option.map_some, Piece.item]
      split
      · next same =>
        cases same
        rfl
      · next same =>
        cases same
        exact absurd rfl (other _)
      · next noReturns _ =>
        exact (keptPiece_plain policy _ fun lines same => noReturns lines (by rw [same])).symm
    · rfl

/-- Every element of a body is picked. -/
theorem isSome_pickPiece {label : String} (member : label ∈ elementLabels)
    (same : part.label? = some label) : (pickPiece part).isSome := by
  unfold pickPiece
  rw [same]
  simp only [elementLabels, mem_cons, not_mem_nil, or_false] at member
  rcases member with rfl | rfl | rfl | rfl | rfl | rfl | rfl | rfl | rfl | rfl | rfl | rfl | rfl |
    rfl | rfl <;> rfl

theorem flatMap_keptPart {body : Part} (labelled : body.Labelled elementLabels)
    (policy : UnnamedPolicy) :
    body.collect.flatMap (keptPart policy) = (body.view pickPiece).flatMap (keptPiece policy) := by
  have listed := labelled.listed
  rw [Part.view]
  generalize body.collect = parts at listed ⊢
  induction parts with
  | nil => rfl
  | cons part parts ih =>
    obtain ⟨⟨label, among, same⟩, later⟩ := forall_mem_cons.mp listed
    obtain ⟨piece, found⟩ := Option.isSome_iff_exists.mp (isSome_pickPiece among same)
    rw [flatMap_cons, ih later, filterMap_cons_some found, flatMap_cons, keptPart, found]

/-- What is read off the captures of a comment, one after the other. -/
theorem flatMap_captures {ofTree : Tree → Text} {ofPart : Part → Text}
    (agree : ∀ part offset, StandsAt part.chars text offset →
      ofTree (part.treeAt offset) = ofPart part) {first body last : Part}
    (stands : StandsAt (commentPart first body last).chars text 0) :
    ((commentPart first body last).treeAt 0).captures.flatMap ofTree =
      ofPart (.field "start" first) ++ (body.collect.flatMap ofPart ++
        ofPart (.field "end" last)) := by
  rw [flatMap_def, Part.map_captures agree stands, ← flatMap_def, captures_comment,
    flatMap_cons, flatMap_append, flatMap_singleton]

end Trees

/-- Without a policy all but the marker of a returned value is kept as it is. -/
theorem keptPart_keep {taken : List Lexeme} {piece : Piece} (found : pickPiece part = some piece)
    (element : ElementOf taken piece)
    (other : ∀ lines, piece.item ≠ .paragraph (.contiguous .returns lines)) :
    keptPart .keep part = part.chars := by
  rw [keptPart, found]
  rcases pickPiece_cases found with ⟨item, rfl, _⟩ | rfl
  · exact keptPiece_plain _ _ other
  · simpa [keptPiece, stays_keep] using flatMap_entries element

/-! ## Formatting -/

/-- What is made of the elements of a body is written with the content of what is kept of them. -/
theorem holds_body {groups : List (List Lexeme)} {pieces : List Piece}
    (each : Forall₂ ElementOf groups pieces) (sound : Sound groups.flatten) (style : Style) :
    ∃ held, Holds ((normalize style.unnamed (pieces.map Piece.item)).flatMap
        (composeItem { style, sticky := opensConstruct })) held ∧
      Holds (pieces.flatMap (keptPiece style.unnamed)) held := by
  have noContent : ∀ item : BlockItem, item.isSeparator → itemContent item = [] := by
    intro item separates
    cases item with
    | paragraph _ => cases separates
    | separator _ => rfl
  have written : Holds ((normalize style.unnamed (pieces.map Piece.item)).flatMap
      (composeItem { style, sticky := opensConstruct }))
        ((normalize style.unnamed (pieces.map Piece.item)).flatMap itemContent) := by
    refine Holds.flatMap fun item member => ?_
    obtain ⟨_, inside, made⟩ := mem_flatMap.mp ((collapseFrom_sublist _ _ _).subset member)
    obtain ⟨piece, among, rfl⟩ := mem_map.mp inside
    obtain ⟨taken, listed, element⟩ := each.exists_of_mem among
    exact element.holds_written (sound.of_mem listed) rfl made
  have read : Holds (pieces.flatMap (keptPiece style.unnamed)) (pieces.flatMap fun piece =>
      (tidyItem style.unnamed piece.item).flatMap itemContent) := by
    refine Holds.flatMap fun piece among => ?_
    obtain ⟨taken, listed, element⟩ := each.exists_of_mem among
    exact element.holds_kept (sound.of_mem listed) _
  have same : (normalize style.unnamed (pieces.map Piece.item)).flatMap itemContent =
      pieces.flatMap fun piece => (tidyItem style.unnamed piece.item).flatMap itemContent := by
    rw [normalize, collapse, flatMap_collapseFrom noContent, flatMap_map, flatMap_assoc]
  rw [same] at written
  exact ⟨_, written, read⟩

section Comments

variable {text opening closing ending : Text} {lexemes : List Lexeme} {first body last : Part}
  (read : readRule rules 6 "block_comment" text =
    some (commentPart first body last, []))

include read

/-- The captures of a comment make up its text. -/
theorem flatMap_textIn (labelled : body.Labelled elementLabels) :
    ((commentPart first body last).treeAt 0).captures.flatMap
      (·.textIn text) = text := by
  have split := (splits_readRule rules 6 "block_comment").split read
  rw [flatMap_captures (fun _ _ => Part.textIn_treeAt) (standsAt_of_read read), labelled.whole]
  simp only [Part.chars, Part.charsAll, append_nil] at split ⊢
  exact split.symm

/-- Where all parameters stay, a capture that holds no returned value is kept as it is. -/
theorem kept_keep (commented : IsComment text opening lexemes closing ending)
    (values : body.view pickPiece = (takeAll element lexemes).1) {part : Tree}
    (member : part ∈ ((commentPart first body last).treeAt 0).captures)
    (other : ∀ lines, item? text part ≠ some (.paragraph (.contiguous .returns lines))) :
    kept .keep text part = part.textIn text := by
  obtain ⟨groups, _, each⟩ := exists_groups commented.taken
  have views : ((commentPart first body last).treeAt 0).captures.map
      (fun part => (item? text part, kept .keep text part, part.textIn text)) =
        (commentPart first body last).captures.map fun part =>
          ((pickPiece part).map Piece.item, keptPart .keep part, part.chars) := by
    refine Part.map_captures (fun part offset stands => ?_) (standsAt_of_read read)
    rw [item?_treeAt part offset stands, kept_treeAt .keep part offset stands,
      Part.textIn_treeAt stands]
  have seen : (item? text part, kept .keep text part, part.textIn text) ∈
      ((commentPart first body last).treeAt 0).captures.map
        (fun part => (item? text part, kept .keep text part, part.textIn text)) :=
    mem_map_of_mem member
  rw [views, captures_comment] at seen
  obtain ⟨inner, among, same⟩ := mem_map.mp seen
  obtain ⟨item, same⟩ := Prod.mk.inj same
  obtain ⟨keptSame, textSame⟩ := Prod.mk.inj same
  rw [← keptSame, ← textSame]
  rw [← item] at other
  cases found : pickPiece inner with
  | none => rw [keptPart, found]
  | some piece =>
    have inBody : inner ∈ body.collect := by
      rcases mem_cons.mp among with rfl | later
      · cases found
      · rcases mem_append.mp later with here | last
        · exact here
        · cases mem_singleton.mp last
          cases found
    have listed : piece ∈ (takeAll element lexemes).1 :=
      values ▸ mem_filterMap.mpr ⟨inner, inBody, found⟩
    obtain ⟨taken, _, isElement⟩ := each.exists_of_mem listed
    refine keptPart_keep found isElement fun lines returns => other lines ?_
    rw [found, Option.map_some, returns]

/-- What is kept of the captures of a comment. -/
theorem flatMap_kept (labelled : body.Labelled elementLabels)
    (values : body.view pickPiece = (takeAll element lexemes).1)
    (firstChars : first.chars = opening ++ ['\n']) (lastChars : last.chars = closing ++ ending)
    (policy : UnnamedPolicy) :
    ((commentPart first body last).treeAt 0).captures.flatMap
      (kept policy text) = opening ++ '\n' ::
        ((takeAll element lexemes).1.flatMap (keptPiece policy) ++ (closing ++ ending)) := by
  have front : keptPart policy (.field "start" first) = opening ++ ['\n'] := by
    rw [← firstChars]
    rfl
  have back : keptPart policy (.field "end" last) = closing ++ ending := by
    rw [← lastChars]
    rfl
  rw [flatMap_captures (kept_treeAt policy) (standsAt_of_read read), flatMap_keptPart labelled,
    values, front, back, append_assoc]
  rfl

end Comments

/-- A comment that is read is formatted. The captures of its tree make up its text. The formatted text
has the same first and last line, and between them the content of the captures without the parameters
that go under the policy and with one spelling for the marker of a returned value. Where the policy
keeps all parameters, nothing else is changed in the captures. -/
theorem content_formatLines {text : Text} {comment : BlockComment}
    (parsed : parse text = .ok comment) (style : Style) :
    ∃ tree formatted, readWith grammar id text = .ok tree ∧ comment = ofTree text tree ∧
      tree.captures.flatMap (·.textIn text) = text ∧
      (∀ part ∈ tree.captures,
        (∀ lines, item? text part ≠ some (.paragraph (.contiguous .returns lines))) →
          kept .keep text part = part.textIn text) ∧
      formatLines style text .blockComment = .ok formatted ∧
      content formatted = content (tree.captures.flatMap (kept style.unnamed text)) ∧
      (lines formatted).head? = (lines text).head? ∧
      (lines formatted).getLast? = (lines text).getLast? := by
  obtain ⟨limit, opening, lexemes, closing, ending, commented, rfl⟩ := parse_eq_ok_iff.mp parsed
  obtain ⟨first, body, last, read, labelled, firstChars, values, lastChars⟩ := commented.read 0
  obtain ⟨groups, whole, each⟩ := exists_groups commented.taken
  have sound : Sound groups.flatten := whole ▸ ⟨commented.known, commented.cleanBody⟩
  obtain ⟨held, written, readHolds⟩ := holds_body each sound style
  have someChar : closing ≠ [] := by
    rintro rfl
    cases commented.closes
  have frame {body held : Text} (holds : Holds body held) :=
    content_frame commented.cleanOpening commented.cleanClosing someChar commented.ends holds
  obtain ⟨contentOut, firstOut, lastOut⟩ := frame written
  obtain ⟨contentIn, _, _⟩ := frame readHolds
  obtain ⟨_, firstText, lastText⟩ := frame
    (holds_textOf ⟨commented.known, commented.cleanBody⟩)
  have textEq : opening ++ '\n' :: (textOf lexemes ++ (closing ++ ending)) = text :=
    commented.whole.symm
  rw [textEq] at firstText lastText
  refine ⟨(commentPart first body last).treeAt 0,
    opening ++ '\n' :: ((normalize style.unnamed ((takeAll element lexemes).1.map Piece.item)).flatMap
      (composeItem { style, sticky := opensConstruct }) ++ (closing ++ ending)),
    readWith_eq_ok_iff.mpr ⟨limit, _, read, rfl⟩, ?_, flatMap_textIn read labelled,
    fun part member => kept_keep read commented values member, ?_, ?_, ?_, ?_⟩
  · rw [ofTree_treeAt (standsAt_of_read read) labelled, firstChars, values, lastChars]
  · simp [formatLines, parsed, compose, bind, Except.bind, pure, Except.pure]
  · rw [contentOut, flatMap_kept read labelled values firstChars lastChars, contentIn]
  · rw [firstOut, firstText]
  · rw [lastOut, lastText]

/-- A comment with a parameter that has no name and a returned value. -/
def mixedComment : Text :=
  "/**\n * @param <unnamed> gone\n * @param x  kept\n *\n * @return aa bb\n */\n".toList

theorem parse_mixedComment : parse mixedComment = .ok
    ⟨"/**\n".toList,
      [.paragraph (.parameters
          [.parameter ⟨.param, [⟨" * ".toList, "<unnamed>".toList, "gone".toList⟩]⟩,
            .parameter ⟨.param, [⟨" * ".toList, "x".toList, "kept".toList⟩]⟩]),
        .separator " *\n".toList,
        .paragraph (.contiguous .returns [⟨" * ".toList, [], "aa bb".toList⟩])],
      " */\n".toList⟩ := by
  exact parse_of_lines [" * @param <unnamed> gone".toList, " * @param x  kept".toList, " *".toList,
    " * @return aa bb".toList] (by decide +kernel) (by decide) rfl (by decide +kernel)

theorem content_mixedComment :
    ∃ tree, readWith grammar id mixedComment = .ok tree ∧
      tree.captures.flatMap (·.textIn mixedComment) = mixedComment ∧
      content "/**\n * @param x kept\n *\n * @returns aa\n * \t\t\tbb\n */\n".toList =
        content (tree.captures.flatMap (kept .drop mixedComment)) := by
  have output : formatLines { width := 16, unnamed := .drop } mixedComment .blockComment =
      .ok "/**\n * @param x kept\n *\n * @returns aa\n * \t\t\tbb\n */\n".toList := by
    rw [formatLines, parse_mixedComment]
    exact congrArg Except.ok (by decide +kernel)
  obtain ⟨tree, formatted, read, _, whole, _, written, same, _⟩ :=
    content_formatLines parse_mixedComment { width := 16, unnamed := .drop }
  rw [output] at written
  cases written
  exact ⟨tree, read, whole, same⟩

end Reflow.Document.Block
