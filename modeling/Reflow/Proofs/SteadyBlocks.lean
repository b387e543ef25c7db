import Reflow.Proofs.RestoredElements
import Reflow.Proofs.SteadyProse

/-!
# Block comments formatted twice

Words that come to begin the first line of prose, or the first line below one that breaks, may open
something else there. In an orderly comment they do not, and its elements are found again. Then the
formatted comment is formatted to itself exactly if no bullet item comes to break after its first
line and is filled otherwise below it (`format_block_again_iff`).
-/

namespace Reflow.Document.Block

open Text Layout Reflow.Expr List

/-! ## Orderly and steady elements -/

def isProse (line : List Text) : Bool := opening (joinWords line) == .prose

/-- The words of some lines, filled into lines behind their lead. -/
def filledLines (ctx : Context) (lines : List TagLine) : List (List Text) :=
  (ctx.wrapBehind (leadOf lines)).fillWords (words (joinLines lines))

/-- Whether the first line of prose, and the first one below a line that breaks, opens nothing
else. -/
def orderly (ctx : Context) : BlockItem → Bool
  | .paragraph (.contiguous .details lines) =>
    filledLines ctx lines != [] && (filledLines ctx lines).head?.all isProse
  | .paragraph (.listItems items) => items.all fun item =>
    !item.breaking || (item.fillBelow ctx (item.contents.tail.flatMap words)).head?.all isProse
  | _ => true

/-- Whether an orderly element is written again as it is. Only bullet items may not be, those that
do not break as they stand. -/
def steady (ctx : Context) : BlockItem → Bool
  | .paragraph (.listItems items) => items.all fun item => item.breaking || Prose.steadyItem ctx item
  | _ => true

def contextOf (style : Style) : Context := { style, sticky := opensConstruct }

variable {ctx : Context} {item : BlockItem}

section Filled

variable {wrap : Wrap} (sticky : wrap.sticky = opensConstruct) {given : List Text}
  (isWord : ∀ word ∈ given, IsWord word)

include sticky isWord

/-- Words that are filled into lines begin no line below the first one with what opens something. -/
theorem prose_below : ∀ line ∈ (wrap.fillWords given).tail, opening (joinWords line) = .prose := by
  intro line member
  have wordsOf := wrap.isWord_of_mem_fillWords isWord line (mem_of_mem_tail member)
  obtain ⟨word, rest, rfl, free⟩ := wrap.begin_of_mem_tail_fillWords given line member
  exact opening_joinWords (wordsOf word mem_cons_self) (sticky ▸ free) rest

theorem prose_filled (first : (wrap.fillWords given).head?.all isProse) :
    ∀ line ∈ wrap.fillWords given, opening (joinWords line) = .prose := by
  have below := prose_below sticky isWord
  cases filled : wrap.fillWords given with
  | nil => simp
  | cons line lines =>
    rw [filled] at first below
    exact forall_mem_cons.mpr ⟨beq_iff_eq.mp first, below⟩

end Filled

/-- Orderly prose is found again. -/
theorem restored_details (sticky : ctx.sticky = opensConstruct) {lines : List TagLine}
    (headed : Headed .details lines)
    (ordered : orderly ctx (.paragraph (.contiguous .details lines))) :
    ∃ taken piece, Restored ctx (.paragraph (.contiguous .details lines)) taken piece := by
  obtain ⟨header, more, rfl, isLead, noArgument⟩ := headed
  obtain ⟨someLine, first⟩ := Bool.and_eq_true_iff.mp ordered
  have isWord : ∀ line ∈ filledLines ctx (header :: more), ∀ word ∈ line, IsWord word :=
    Wrap.isWord_of_mem_lines _ _
  have whole : (filledLines ctx (header :: more)).flatten = _ := Wrap.flatten_fillWords _ _
  have prose : ∀ line ∈ filledLines ctx (header :: more), opening (joinWords line) = .prose :=
    prose_filled sticky (fun _ => isWord_of_mem_words) first
  have written : composeItem ctx (.paragraph (.contiguous .details (header :: more))) =
      leadLines header.lead ((filledLines ctx (header :: more)).map joinWords) :=
    contiguous_nil ctx header.lead fun empty => by
      rw [filledLines, empty] at someLine
      cases someLine
  rw [words_joinLines] at whole
  obtain ⟨line, rest, filled⟩ := exists_cons_of_ne_nil (bne_iff_ne.mp someLine)
  rw [filled] at isWord whole prose written
  have same : SameLines (header :: more) ((line :: rest).map (proseOf header.lead)) :=
    ⟨rfl, congrArg some noArgument.symm, (allWords_proseOf isWord).trans whole⟩
  refine ⟨_, _, sound_proseLexemes isLead isWord prose,
    .details (cons_ne_nil _ _) (tokensOf_proseLexemes _ _), ?_, rfl,
    composeParagraph_same ctx (.contiguous .details same), fun _ _ => rfl⟩
  rw [written, textOf_proseLexemes]

/-! ## Bullet items -/

/-- A bullet behind a lead is found again, with what stands in front of it. -/
theorem line?_bullet {lead : Text} (isLead : IsLead lead) {c : Char} (marks : isBullet c)
    (text : Text) : ∃ start : ListItem,
      line? (lead ++ c :: ' ' :: text) = some (.bullet start) ∧
      start.breaking = "<br>".toList.isSuffixOf (lead ++ c :: ' ' :: text) ∧
      start.head = lead ++ c :: ' ' :: text ∧ start.front = lead ∧ start.start = [c, ' '] ∧
      start.contents = [text] := by
  have solid : ∀ d ∈ (c :: ' ' :: text).head?, isIndent d = false := by
    rintro _ ⟨⟩
    rcases Prose.isBullet_iff.mp marks with rfl | rfl | rfl <;> rfl
  have opened : opening (c :: ' ' :: text) = .bullet c text := opening_eq_iff.mpr ⟨rfl, marks⟩
  obtain ⟨front, rest, star, whole, body⟩ := star?_lead isLead solid
  rw [line?, star]
  dsimp only
  rw [body, opened]
  refine ⟨_, rfl, (Prose.isSuffixOf_break lead text c).symm, rfl, ?_, rfl, rfl⟩
  cases rest with
  | nil => cases body
  | cons d rest =>
    have blank : isIndent d := head_of_star? star
    simpa [ListItem.front, blank] using whole

/-- A line with a bullet and lines of prose below are read as an item. -/
theorem exists_itemOf {line lead : Text} {start : ListItem} {rest : List (List Text)}
    (found : line? line = some (.bullet start)) (clean : '\n' ∉ line) (isLead : IsLead lead)
    (isWord : ∀ line ∈ rest, ∀ word ∈ line, IsWord word)
    (prose : ∀ line ∈ rest, opening (joinWords line) = .prose) :
    ∃ taken, ItemOf taken { start with contents := start.contents ++ rest.map joinWords } ∧
      Sound taken ∧ textOf taken = line ++ '\n' :: leadLines lead (rest.map joinWords) := by
  have tokens : tokensOf (⟨[line], .bullet start⟩ :: proseLexemes lead rest) = _ :=
    congrArg (_ :: ·) (tokensOf_proseLexemes lead rest)
  have isItem := ItemOf.item tokens
  rw [map_map] at isItem
  refine ⟨_, isItem, (Sound.line found clean).append (sound_proseLexemes isLead isWord prose), ?_⟩
  have text := textOf_append [⟨[line], .bullet start⟩] (proseLexemes lead rest)
  rw [textOf_proseLexemes] at text
  simpa [textOf, unlines] using text

theorem exists_plain (sticky : ctx.sticky = opensConstruct) {item : ListItem} {c : Char}
    (plain : item.breaking = false) (start : item.start = [c, ' ']) (front : IsLead item.front)
    (marks : isBullet c) :
    ∃ taken again, ItemOf taken again ∧ Sound taken ∧
      Settles (Prose.steadyItem ctx item) (again.compose ctx) (item.compose ctx) ∧
      textOf taken = item.compose ctx := by
  have isWord := Prose.isWord_of_mem_filled ctx item
  have here := unbroken_joinWords (Prose.isWord_of_mem_headD isWord)
  obtain ⟨again, found, breaking, head, same, mark, contents⟩ :=
    line?_bullet front marks (joinWords ((item.filled ctx).headD []))
  have solid : '\n' ≠ c := by
    rintro rfl
    cases marks
  have clean := not_mem_append front.unbroken (not_mem_cons_of_ne_of_not_mem solid
    (not_mem_cons_of_ne_of_not_mem (by decide : '\n' ≠ ' ') here))
  obtain ⟨taken, isItem, sound, read⟩ := exists_itemOf found clean (front.append indents_tab)
    (fun line member => isWord line (mem_of_mem_tail member))
    (prose_below sticky Prose.isWord_of_mem_contents)
  refine ⟨taken, _, isItem, sound, ?_, read.trans (Prose.compose_bullet plain start ctx).symm⟩
  convert Prose.settles_plain plain start ctx using 1
  rw [ListItem.front] at same
  simp only [ListItem.compose, Prose.itemOf, breaking, head, same, mark, contents]
  rfl

theorem exists_item (sticky : ctx.sticky = opensConstruct) {group : List Lexeme} {item : ListItem}
    (isItem : ItemOf group item) (sound : Sound group) (ordered : !item.breaking ||
      (item.fillBelow ctx (item.contents.tail.flatMap words)).head?.all isProse) :
    ∃ taken again, ItemOf taken again ∧ Sound taken ∧
      Settles (item.breaking || Prose.steadyItem ctx item) (again.compose ctx) (item.compose ctx) ∧
      textOf taken = item.compose ctx := by
  obtain ⟨⟨breaking, head, lead, indent, mark, contents⟩, more, rfl, found, clean⟩ :=
    isItem.exists_start sound
  obtain ⟨text, _, isLead, indents, ⟨c, marks, rfl⟩, rfl, lineEq, breaks⟩ := Token.of_line? found
  have front : IsLead (lead ++ indent) := isLead.append indents
  cases breaking with
  | false => exact exists_plain sticky rfl rfl front marks
  | true =>
    -- The first line stays, and the words below it are filled as they were.
    have ends : "<br>".toList.isSuffixOf head := by
      have line : head = lead ++ (indent ++ c :: ' ' :: text) := lineEq
      rw [line, ← append_assoc, Prose.isSuffixOf_break]
      exact breaks.symm
    have isWord : ∀ word ∈ more.flatMap words, IsWord word := Prose.isWord_of_mem_contents
    obtain ⟨taken, isItem, sound, read⟩ := exists_itemOf found clean (front.append indents_tab)
      (Wrap.isWord_of_mem_fillWords _ isWord) (prose_filled sticky isWord ordered)
    exact ⟨taken, _, isItem, sound, .of_eq rfl (Prose.compose_refilled rfl rfl ends ctx more),
      read.trans (Prose.compose_below rfl rfl ends ctx more).symm⟩

/-- What is written for an element is read as one of the same kind, which is written so again
exactly if the element is steady. -/
def ReadAgain (policy : UnnamedPolicy) (ctx : Context) (item : BlockItem) : Prop :=
  ∃ taken piece, Whole policy taken piece ∧ Sound taken ∧ (piece.item.kind? = item.kind? ∧
    Settles (steady ctx item) (composeItem ctx piece.item) (composeItem ctx item)) ∧
    textOf taken = composeItem ctx item

section Rereading

variable {policy : UnnamedPolicy} (fixed : tidyItem policy item = [item])

include fixed

theorem Restored.readAgain {taken : List Lexeme} {piece : Piece}
    (restored : Restored ctx item taken piece) (still : steady ctx item) : ReadAgain policy ctx item :=
  ⟨taken, piece, ⟨restored.element, restored.tidy _ fixed⟩, restored.sound,
    ⟨restored.kind, .of_eq still restored.same⟩, restored.text⟩

theorem readAgain_of_orderly (sticky : ctx.sticky = opensConstruct) (fits : ItemFits item ∨ Flows item)
    (ordered : orderly ctx item) : ReadAgain policy ctx item := by
  rcases fits with fits | flows
  · obtain ⟨taken, piece, restored, _⟩ := fits.exists_restored sticky
    refine restored.readAgain fixed ?_
    cases fits with
    | @marked kind => cases kind <;> rfl
    | _ => rfl
  · cases flows with
    | details headed =>
      obtain ⟨_, _, restored⟩ := restored_details sticky headed ordered
      exact restored.readAgain fixed rfl
    | @items items someItem each =>
      have all := all_eq_true.mp ordered
      obtain ⟨groups, others, eachOf, sound, same, written⟩ := exists_rereading fun item member => by
        obtain ⟨group, isItem, sound⟩ := each item member
        exact exists_item sticky isItem sound (all item member)
      have someOther : others ≠ [] := by
        rintro rfl
        cases same
        exact someItem rfl
      refine ⟨_, _, ⟨.items someOther rfl eachOf, rfl⟩, sound, ⟨rfl, ?_⟩, written⟩
      rw [steady, all_eq_true]
      exact .flatMap same

end Rereading

/-! ## Formatting -/

/-- An element does not take in the one behind it. -/
def Untaken (first second : BlockItem) : Prop := second.kind? ∉ takenIn first.kind?

instance : DecidableRel Untaken := fun _ _ => inferInstanceAs (Decidable (_ ∉ _))

section Formatting

variable {style : Style} {text out : Text} {comment : BlockComment}
  (apart : (normalize style.unnamed comment.items).IsChain Untaken)

include apart

theorem standing_normalize (parsed : parse text = .ok comment) :
    Standing ((normalize style.unnamed comment.items).map BlockItem.kind?) := by
  have run : ∀ item ∈ normalize style.unnamed comment.items, item.kind? = some .param →
      ∃ entries, item = .paragraph (.parameters entries) := by
    intro item member runHere
    rcases fits_of_parse parsed (mem_of_mem_normalize member) with fits | flows
    · rcases fits.of_kind runHere with ⟨listed, _⟩ | run | other
      · exact absurd listed (by decide)
      · exact run
      · exact absurd other (by decide)
    · cases flows <;> cases runHere
  refine ⟨(isChain_map _).mpr apart, fun inside => ?_⟩
  obtain ⟨three, among, same⟩ := infix_map_iff.mp inside
  obtain ⟨first, _, rfl, isFirst, same⟩ := map_eq_cons_iff.mp same.symm
  obtain ⟨gap, _, rfl, gapHere, same⟩ := map_eq_cons_iff.mp same
  obtain ⟨second, _, rfl, isSecond, nothing⟩ := map_eq_cons_iff.mp same
  obtain rfl := map_eq_nil_iff.mp nothing
  obtain ⟨_, rfl⟩ := run first (among.subset (by simp)) isFirst
  obtain ⟨_, rfl⟩ := run second (among.subset (by simp)) isSecond
  obtain ⟨_, opening, lexemes, closing, ending, _, rfl⟩ := parse_eq_ok_iff.mp parsed
  have steps := steps_of_runs (shortens_element.runs_takeAll lexemes)
  cases gap with
  | separator line => exact (steps.runsApart.normalize style.unnamed).across _ _ _ among
  | paragraph content => cases gapHere

/-- The lines of a formatted comment are formatted to themselves exactly if all elements are
steady. -/
theorem formatLines_compose (parsed : parse text = .ok comment)
    (ordered : ∀ item ∈ normalize style.unnamed comment.items, orderly (contextOf style) item)
    (written : compose style { comment with items := normalize style.unnamed comment.items } = out)
    (small : byteLength out ≤ inputLimit) (ends : endsLine out) :
    ∃ again, formatLines style out .blockComment = .ok again ∧ endsLine again ∧
      (again = out ↔
        ∀ item ∈ normalize style.unnamed comment.items, steady (contextOf style) item) := by
  have standing := standing_normalize apart parsed
  -- As the kinds stay, what is found again for each element stands apart too.
  obtain ⟨groups, pieces, each, sound, same, textEq⟩ := exists_rereading fun item member =>
    readAgain_of_orderly (tidyItem_of_mem_normalize member) rfl
      (fits_of_parse parsed (mem_of_mem_normalize member)) (ordered item member)
  have kinds : kindsOf pieces = (normalize style.unnamed comment.items).map BlockItem.kind? := by
    rw [kindsOf, map_eq_flatMap, map_eq_flatMap]
    exact same.flatMap_eq fun _ _ alike => congrArg ([·]) alike.1
  rw [← kinds] at standing
  have found := shortens_element.takeAll_eq (runs_elements each standing)
  have whole : comment.start ++ textOf groups.flatten ++ comment.stop = out := by
    rw [textEq]
    exact written
  have read := parse_framed parsed sound found (whole ▸ small)
  rw [whole] at read
  refine ⟨compose style _, by rw [formatLines, read]; rfl,
    (endsFilled_compose style ends read _).endsLine, ?_⟩
  rw [normalize_pieces each standing, ← written, compose, compose, append_left_inj,
    append_right_inj, flatMap_map]
  exact (Settles.flatMap (same.imp fun _ _ => And.right)).eq_iff

end Formatting

/-- What is written for a comment closes the lines of the result. -/
theorem closeLine_of_format {style : Style} {text out : Text} {comment : BlockComment}
    (parsed : parse (closeLine text) = .ok comment)
    (formatted : format style .blockComment text = .ok out) :
    compose style { comment with items := normalize style.unnamed comment.items } =
      closeLine out := by
  cases ends : endsLine text with
  | true =>
    rw [closeLine, if_pos ends] at parsed
    rw [format, if_pos ends, formatLines, parsed] at formatted
    obtain rfl := Except.ok.inj formatted
    exact (if_pos (endsFilled_compose style ends parsed _).endsLine).symm
  | false =>
    obtain ⟨whole, written, rfl⟩ := (format_of_open ends).mp formatted
    rw [closeLine, ends, if_neg Bool.false_ne_true] at parsed
    rw [formatLines, parsed] at written
    obtain rfl := Except.ok.inj written
    have filled := endsFilled_compose style (endsLine_concat text) parsed
      (normalize style.unnamed comment.items)
    rw [closeLine, filled.dropped, if_neg Bool.false_ne_true]
    exact (dropLineBreak_append filled.endsLine).symm

theorem endsLine_framed (body : Text) : endsLine (framed body) := by
  have ends := endsLine_concat ("/**\n".toList ++ body ++ " */".toList)
  rw [append_assoc] at ends
  exact ends

theorem format_of_lines (style : Style) (lines : List Text)
    (known : ∀ line ∈ lines, (line? line).isSome) (unbroken : ∀ line ∈ lines, '\n' ∉ line)
    {pieces : List Piece} (found : takeAll element (lines.map lineLexeme) = (pieces, []))
    (limit : byteLength (framed (unlines lines)) ≤ inputLimit) :
    format style .blockComment (framed (unlines lines)) =
      .ok (compose style ⟨"/**\n".toList, normalize style.unnamed (pieces.map Piece.item),
        " */\n".toList⟩) := by
  rw [format, if_pos (endsLine_framed _), formatLines,
    parse_of_lines lines known unbroken found limit]
  rfl

/-- A formatted block comment, if no element of it takes in one that comes to stand behind it and
all of them are orderly, is formatted to itself exactly if it is not too large and all of its
elements are steady. -/
theorem format_block_again_iff {style : Style} {text out : Text} {comment : BlockComment}
    (parsed : parse (closeLine text) = .ok comment)
    (apart : (normalize style.unnamed comment.items).IsChain Untaken)
    (ordered : ∀ item ∈ normalize style.unnamed comment.items, orderly (contextOf style) item)
    (formatted : format style .blockComment text = .ok out) :
    format style .blockComment out = .ok out ↔ byteLength (closeLine out) ≤ inputLimit ∧
      ∀ item ∈ normalize style.unnamed comment.items, steady (contextOf style) item := by
  by_cases small : byteLength (closeLine out) ≤ inputLimit
  · obtain ⟨again, formattedAgain, ends, same⟩ := formatLines_compose apart parsed ordered
      (closeLine_of_format parsed formatted) small (endsLine_closeLine out)
    rw [format_self_iff formattedAgain ends, same, and_iff_right small]
  · rw [(guarded_format style .blockComment out).large (by omega)]
    simp [small]

/-- Prose above two bullet items, the first of which breaks. -/
def bulletLines : List Text :=
  [" * aa".toList, " * - bb<br>".toList, " * cc".toList, " * dd".toList, " * - ee ff".toList]

theorem format_bulletLines_again :
    ∃ out, format { width := 8 } .blockComment (framed (unlines bulletLines)) = .ok out ∧
      format { width := 8 } .blockComment out = .ok out := by
  have known : ∀ line ∈ bulletLines, (line? line).isSome := by decide +kernel
  have unbroken : ∀ line ∈ bulletLines, '\n' ∉ line := by decide
  have found : takeAll element (bulletLines.map lineLexeme) = (_, []) := rfl
  have closed : closeLine (framed (unlines bulletLines)) = _ := if_pos (endsLine_framed _)
  have parsed := (congrArg parse closed).trans
    (parse_of_lines bulletLines known unbroken found (by decide +kernel))
  have formatted := format_of_lines { width := 8 } bulletLines known unbroken found (by decide +kernel)
  exact ⟨_, formatted, (format_block_again_iff parsed (by decide +kernel) (by decide +kernel)
    formatted).mpr ⟨by decide +kernel, by decide +kernel⟩⟩

/-- Formatting a block comment twice can differ from formatting it once: a bullet alone in a line is
prose, but not once words are filled in behind it. -/
theorem loneDash_drifts :
    ¬∀ (style : Style) (text out : Text), format style .blockComment text = .ok out →
      byteLength out < inputLimit → format style .blockComment out = .ok out := by
  intro always
  have once : format { width := 8 } .blockComment "/**\n * -\n * aaa bbb\n */\n".toList =
      .ok "/**\n * - aaa\n * bbb\n */\n".toList :=
    (format_of_lines _ [" * -".toList, " * aaa bbb".toList] (by decide +kernel) (by decide) rfl
      (by decide +kernel)).trans (congrArg Except.ok (by decide +kernel))
  have twice := format_of_lines { width := 8 } [" * - aaa".toList, " * bbb".toList]
    (by decide +kernel) (by decide) rfl (by decide +kernel)
  have same := Except.ok.inj ((always _ _ _ once (by decide)).symm.trans twice)
  revert same
  decide +kernel

end Reflow.Document.Block
