import Reflow.Proofs.BlockReading

/-!
# Block comments and their trees

What is read off the tree of a block comment is what its parts hold, so `parse` accepts a text
exactly if the text falls into an opening line, tokens and a closing line (`parse_eq_ok_iff`).
-/

namespace Reflow.Document.Block

open Text Layout Reflow.Expr List Pattern Part

variable {part : Part} {text : Text}

section Trees

variable {text : Text}

theorem lineOfTree_treeAt (part : Part) (offset : Nat) (stands : StandsAt part.chars text offset) :
    TagLine.ofTree text (part.treeAt offset) = lineOfPart part := by
  rw [TagLine.ofTree, lineOfPart, attrText_treeAt _ stands, attrText_treeAt _ stands,
    attrText_treeAt _ stands]

variable {offset : Nat}

theorem linesOfTree_treeAt (stands : StandsAt part.chars text offset) :
    linesOfTree text (part.treeAt offset) = part.body.view pickLine := by
  rw [linesOfTree, ← filterMap_eq_map, filterMap_filter]
  refine filterMap_captures (fun inner offset stands => ?_) stands
  rw [label?_treeAt, pickLine, Function.comp_apply, lineOfTree_treeAt inner offset stands]

theorem entryAt?_treeAt (part : Part) (offset : Nat) (stands : StandsAt part.chars text offset) :
    entryAt? text (part.treeAt offset) = entryOfPart? part := by
  rewrite [entryAt?, entryOfPart?, label?_treeAt, textIn_treeAt stands, linesOfTree_treeAt stands]
  rfl

theorem runEntries_treeAt (stands : StandsAt part.chars text offset) :
    runEntries text (part.treeAt offset) = (part.body.view pickEntry).map (·.2) := by
  rw [runEntries, filterMap_captures entryAt?_treeAt stands, view, map_filterMap]
  congr 1
  funext inner
  rw [pickEntry, Option.map_map]
  exact (Option.map_id' ..).symm

theorem ofStart_treeAt (part : Part) (offset : Nat) (stands : StandsAt part.chars text offset) :
    ListItem.ofStart text (part.treeAt offset) = startOfPart part := by
  rw [ListItem.ofStart, startOfPart, textIn_treeAt stands, attrText_treeAt _ stands,
    attrText_treeAt _ stands, attrText_treeAt _ stands, attrText_treeAt _ stands]

theorem filterMap_start? (parts : List Part) :
    (parts.filterMap pickItem).filterMap ItemPart.start? =
      parts.filterMap fun part =>
        if part.label? == some "start_line" then some (startOfPart part) else none := by
  rw [filterMap_filterMap]
  congr 1
  funext part
  unfold pickItem
  split
  · next label => simp [label, ItemPart.start?]
  · next other label =>
    rw [label, if_neg (by simpa using other)]
    rfl
  · next label => simp [label]

theorem flatMap_contents {parts : List Part}
    (labelled : ∀ part ∈ parts, ∃ label value, part = .field label value) :
    (parts.filterMap pickItem).flatMap ItemPart.contents =
      parts.map (·.attrText "contents") := by
  induction parts with
  | nil => rfl
  | cons part parts ih =>
    obtain ⟨⟨label, value, rfl⟩, later⟩ := forall_mem_cons.mp labelled
    obtain ⟨picked, found, contents⟩ : ∃ picked, pickItem (.field label value) = some picked ∧
        picked.contents = [(field label value).attrText "contents"] := by
      unfold pickItem
      by_cases start : label = "start_line"
      · subst start
        exact ⟨_, rfl, rfl⟩
      · refine ⟨.line ((field label value).attrText "contents"), ?_, rfl⟩
        simp
    rw [filterMap_cons_some found, flatMap_cons, contents, ih later]
    rfl

theorem itemOfTree_treeAt (part : Part) (offset : Nat) (stands : StandsAt part.chars text offset) :
    ListItem.ofTree text (part.treeAt offset) = itemOfPart part := by
  have labelled : ∀ piece ∈ part.captures, ∃ label value, piece = .field label value :=
    fun piece member => eq_field_of_mem_collect part.body member
  have contents : (part.treeAt offset).captures.map (·.attrText "contents" text) =
      part.captures.map (·.attrText "contents") :=
    map_captures (fun inner _ stands => attrText_treeAt _ stands) stands
  have held : part.body.view pickItem = part.captures.filterMap pickItem := rfl
  rw [ListItem.ofTree, map_find?_captures ofStart_treeAt stands, map_find?,
    contents, label?_treeAt, itemOfPart, itemOfParts, held, filterMap_start?,
    flatMap_contents labelled]

theorem filterMap_pickCode {γ : Type} {pick : CodePart → Option γ} {other : Part → Option γ}
    (same : ∀ part, (pickCode part).bind pick = other part) (part : Part) :
    (part.body.view pickCode).filterMap pick = part.captures.filterMap other := by
  rw [view, filterMap_filterMap]
  congr 1
  funext inner
  exact same inner

def codeLineOfPart? (part : Part) : Option (Option Text) :=
  match part.label? with
  | some "code_line" => some (some (part.attrText "contents"))
  | some "blank" => some none
  | _ => none

theorem codeLine?_treeAt (part : Part) (offset : Nat) (stands : StandsAt part.chars text offset) :
    codeLine? text (part.treeAt offset) = codeLineOfPart? part := by
  rewrite [codeLine?, codeLineOfPart?, label?_treeAt, attrText_treeAt _ stands]
  rfl

theorem code_treeAt (stands : StandsAt part.chars text offset) :
    code text (part.treeAt offset) = codeOfParts (part.body.view pickCode) := by
  rw [code, codeOfParts]
  congr 1
  · rw [map_find?_captures lineOfTree_treeAt stands, map_find?]
    congr 2
    refine (filterMap_pickCode (fun inner => ?_) part).symm
    unfold pickCode
    split <;> simp_all [CodePart.header?]
  · rw [filterMap_captures codeLine?_treeAt stands]
    refine (filterMap_pickCode (fun inner => ?_) part).symm
    unfold pickCode codeLineOfPart?
    split <;> simp_all [CodePart.line?]
  · rw [map_find?_captures (fun _ _ => textIn_treeAt) stands, map_find?]
    congr 2
    refine (filterMap_pickCode (fun inner => ?_) part).symm
    unfold pickCode
    split <;> simp_all [CodePart.close?]

theorem paragraph_treeAt (kind : Construct) (stands : StandsAt part.chars text offset) :
    paragraph text kind (part.treeAt offset) = paragraphOfPart kind part.body := by
  have items : (part.treeAt offset).captures.map (ListItem.ofTree text) =
      part.body.view (some ∘ itemOfPart) := by
    rw [map_captures itemOfTree_treeAt stands, view, filterMap_eq_map]
    rfl
  unfold paragraph paragraphOfPart ofLines
  rw [code_treeAt stands, items, textIn_treeAt stands, linesOfTree_treeAt stands, chars_body]
  cases kind.strategy <;> rfl

/-- The element that a tree holds is the one of its part. -/
theorem item?_treeAt (part : Part) (offset : Nat) (stands : StandsAt part.chars text offset) :
    item? text (part.treeAt offset) = (pickPiece part).map Piece.item := by
  unfold item? pickPiece
  rw [label?_treeAt, textIn_treeAt stands, runEntries_treeAt stands]
  cases part.label? with
  | none => rfl
  | some label =>
    split
    · next same => cases same; rfl
    · next same => cases same; rfl
    · next same => cases same; rfl
    · next same => cases same; rfl
    · next other _ _ _ _ same =>
      cases same
      simp [Function.comp_def, Piece.item, paragraph_treeAt _ stands, *]
    · next impossible => cases impossible

theorem captureText_treeAt (stands : StandsAt part.chars text offset) (label : String) :
    captureText text (part.treeAt offset).captures label =
      ((part.captures.find? (·.label? == some label)).map chars).getD [] := by
  have found : ((part.treeAt offset).captures.find? (·.label? == some label)).map (·.textIn text) =
      (part.captures.find? (·.label? == some label)).map chars :=
    map_find?_captures (fun _ _ => textIn_treeAt) stands label
  rw [← found, captureText]
  cases (part.treeAt offset).captures.find? (·.label? == some label) <;> rfl

end Trees

/-! ## Documents -/

def patterns : List String :=
  [indentation, blanks, restOfLine, nonEmptyRest,
    expression, bullet, tagStart, "\\w", "(?s).", "\\n", "[\\t ]",
    "[\\t ]*\\*", "[\\t ]*/\\*\\*?", "[\\t ]*\\*\\*?/", "\\\x7b.+?\\\x7d", "[\\t ]*@endcode",
    ".*<br>", "\\[.+\\]: .*"]

theorem compiles : PatternsCompile rules := by
  have listed : ∀ pattern ∈ rules.flatMap (·.2.patterns), pattern ∈ patterns := by
    decide +kernel
  have known : ∀ pattern ∈ patterns, (Regex.anchored? pattern).isSome := by
    simp [patterns, compiled_indentation, compiled_blanks, compiled_restOfLine,
      compiled_nonEmptyRest, compiled_expression, compiled_bullet, compiled_tagStart,
      compiled_word, compiled_any, compiled_newline, compiled_blank, compiled_star, compiled_open,
      compiled_close, compiled_hint, compiled_endcode, compiled_lineBreak, compiled_link]
  exact fun rule member pattern used =>
    known pattern (listed pattern (mem_flatMap.mpr ⟨rule, member, used⟩))

theorem build_rules : ∃ built, Grammar.build rules = .ok built :=
  Grammar.exists_of_build (by decide +kernel)

/-- Reading a text with the grammar, in terms of parts. -/
theorem readWith_eq_ok_iff {α : Type} {read : Tree → α} {value : α} :
    readWith grammar read text = .ok value ↔ byteLength text ≤ inputLimit ∧
      ∃ part, readRule rules 6 "block_comment" text = some (part, []) ∧
        read (part.treeAt 0) = value := by
  obtain ⟨built, same⟩ := build_rules
  have closed : (reference "block_comment").closedWithin rules 6 := by decide
  exact readWith_build same compiles rfl closed (by decide)

/-- What is read of a whole text stands at its front. -/
theorem standsAt_of_read {name : String} {levels : Nat}
    (read : readRule rules levels name text = some (part, [])) : StandsAt part.chars text 0 := by
  rw [(splits_readRule rules levels name).split read, append_nil]
  exact .whole _

theorem captures_comment (first body last : Part) :
    (commentPart first body last).captures =
      .field "start" first :: (body.collect ++ [.field "end" last]) := by
  simp [commentPart, Part.captures, Part.body]

theorem find?_end {body : Part} (labelled : body.Labelled elementLabels) :
    body.collect.find? (·.label? == some "end") = none := by
  rw [List.find?_eq_none]
  intro piece member found
  obtain ⟨label, among, same⟩ := labelled.listed piece member
  rw [same, beq_iff_eq, Option.some.injEq] at found
  subst found
  exact absurd among (by decide)

/-- The comment that is read off the tree of a text. -/
theorem ofTree_treeAt {first body last : Part}
    (stands : StandsAt (commentPart first body last).chars text 0)
    (labelled : body.Labelled elementLabels) :
    ofTree text ((commentPart first body last).treeAt 0) =
      ⟨first.chars, (body.view pickPiece).map Piece.item, last.chars⟩ := by
  have items : (commentPart first body last).captures.filterMap
      (fun part => (pickPiece part).map Piece.item) = (body.view pickPiece).map Piece.item := by
    rw [captures_comment, view, map_filterMap]
    simp [pickPiece]
  have firstFound : (commentPart first body last).captures.find?
      (·.label? == some "start") = some (.field "start" first) := by
    rw [captures_comment]
    rfl
  have lastFound : (commentPart first body last).captures.find?
      (·.label? == some "end") = some (.field "end" last) := by
    have later : ((field "start" first).label? == some "end") = false := rfl
    rw [captures_comment, List.find?_cons_of_neg (by rw [later]; exact Bool.false_ne_true),
      List.find?_append, find?_end labelled]
    rfl
  rw [ofTree, captureText_treeAt stands, captureText_treeAt stands,
    filterMap_captures item?_treeAt stands, items, firstFound, lastFound]
  simp only [Option.map_some, Option.getD_some, chars]

/-- A text is read as a comment exactly if it falls into an opening line, tokens that are taken
together to the elements of a body, and a closing line. -/
theorem parse_eq_ok_iff {comment : BlockComment} :
    parse text = .ok comment ↔ byteLength text ≤ inputLimit ∧
      ∃ opening lexemes closing ending, IsComment text opening lexemes closing ending ∧
        comment =
          ⟨opening ++ ['\n'], (takeAll element lexemes).1.map Piece.item, closing ++ ending⟩ := by
  rw [parse, readWith_eq_ok_iff]
  refine and_congr_right fun _ => ?_
  have value : ∀ {opening lexemes closing ending},
      IsComment text opening lexemes closing ending →
      ∃ part, readRule rules 6 "block_comment" text = some (part, []) ∧
        ofTree text (part.treeAt 0) =
          ⟨opening ++ ['\n'], (takeAll element lexemes).1.map Piece.item, closing ++ ending⟩ := by
    intro opening lexemes closing ending commented
    obtain ⟨first, body, last, read, labelled, firstChars, values, lastChars⟩ := commented.read 0
    refine ⟨_, read, ?_⟩
    rw [ofTree_treeAt (standsAt_of_read read) labelled, firstChars, values, lastChars]
  constructor
  · rintro ⟨part, read, rfl⟩
    obtain ⟨opening, lexemes, closing, ending, commented⟩ := exists_isComment read
    obtain ⟨_, again, same⟩ := value commented
    rw [read] at again
    cases again
    exact ⟨opening, lexemes, closing, ending, commented, same⟩
  · rintro ⟨opening, lexemes, closing, ending, commented, rfl⟩
    exact value commented

end Reflow.Document.Block
