import Reflow.Proofs.FencedCode

/-!
# Elements restored

What is written for an element that comes from a comment is read again as an element of the same
kind and with the same content, which is written so again (`ItemFits.exists_restored`). Only what
flows, prose by itself and bullet items, can be read as something else. The content is written in
any case (`ElementOf.holds_written`).
-/

namespace Reflow.Document.Block

open Text Layout Reflow.Expr List

/-- An element that is read again from what is written for another one. -/
structure Restored (ctx : Context) (item : BlockItem) (taken : List Lexeme) (piece : Piece) :
    Prop where
  sound : Sound taken
  element : ElementOf taken piece
  text : textOf taken = composeItem ctx item
  kind : piece.item.kind? = item.kind?
  same : composeItem ctx piece.item = composeItem ctx item
  tidy : ∀ policy, tidyItem policy item = [item] → tidyItem policy piece.item = [piece.item]

variable {ctx : Context} {item : BlockItem} {paragraph again : Paragraph}

/-! ## Paragraphs with a marker -/

theorem SameLines.content {lines again : List TagLine} (same : SameLines lines again) :
    linesContent again = linesContent lines := by
  rw [← solid_joinLines, ← solid_joinLines, same.joinLines_eq]

theorem SameEntry.content {entry again : RunEntry} (same : SameEntry entry again) :
    entryContent again = entryContent entry := by
  cases same with
  | parameter kind same =>
    simp only [entryContent, Parameter.marker, Parameter.name, same.argument, same.content]
  | separator line => rfl

theorem SameParagraph.content (same : SameParagraph paragraph again) :
    paragraphContent again = paragraphContent paragraph := by
  cases same with
  | contiguous kind same => exact congrArg (_ ++ ·) same.content
  | breaking kind same => simp only [paragraphContent, argument_head, same.argument, same.content]
  | parameters same => exact same.flatMap_eq fun _ _ one => one.content

theorem ItemFits.restored_tagged (fits : ItemFits (.paragraph paragraph))
    (tagged : paragraph.isTagged) (sticky : ctx.sticky = opensConstruct) :
    ∃ taken piece, Restored ctx (.paragraph paragraph) taken piece ∧
      itemContent piece.item = paragraphContent paragraph := by
  obtain ⟨taken, piece, again, sound, written, element, made, same, tidy⟩ :=
    fits.exists_tagged tagged ctx sticky
  rw [made] at tidy
  refine ⟨taken, piece, ⟨sound, element, written, ?_, ?_, fun policy fixed => ?_⟩, ?_⟩ <;> rw [made]
  · cases same <;> rfl
  · exact composeParagraph_same ctx same
  · cases same with
    | contiguous _ _ | breaking _ _ => rfl
    | parameters same =>
      have member := mem_flatMap.mpr ⟨_, mem_singleton_self _, fixed ▸ mem_cons_self⟩
      obtain ⟨given, rfl, _⟩ := exists_tidyRun member
      refine (tidy _ rfl).tidyItem_eq fun entry inside => ?_
      obtain ⟨former, among, one⟩ := same.exists_of_mem inside
      rw [one.stays_eq, stays_of_mem_tidyRun among]
  · exact same.content

/-! ## References -/

theorem trim_trim (text : Text) :
    trim (trim text) = trim text ∧ ∀ c ∈ (trim text).head?, isBlank c = false := by
  cases front : trimStart text with
  | nil =>
    have empty : trim text = [] := by
      rw [trim, front]
      rfl
    rw [empty]
    exact ⟨rfl, by simp⟩
  | cons c rest =>
    have solid : isBlank c = false := by
      have first := List.head?_dropWhile_not isBlank text
      rwa [← trimStart, front] at first
    have kept : trim text = c :: trimEnd rest := by
      rw [trim, front]
      exact dropEndWhile_kept solid [] rest
    have again : trim (c :: trimEnd rest) = c :: trimEnd (trimEnd rest) := by
      rw [trim, trimStart, dropWhile_cons_of_neg (by simp [solid])]
      exact dropEndWhile_kept solid [] _
    rw [kept, again, trimEnd_trimEnd]
    refine ⟨rfl, fun d first => ?_⟩
    cases first
    exact solid

theorem restored_reference {kind : Construct} {line : TagLine} (member : kind ∈ referenceKinds)
    (headed : Headed kind [line]) (unbroken : '\n' ∉ line.contents) :
    ∃ taken piece, Restored ctx (.paragraph (.reference kind line)) taken piece ∧
      itemContent piece.item = paragraphContent (.reference kind line) := by
  obtain ⟨_, _, ⟨⟩, isLead, argues⟩ := headed
  have facts : ∀ kind ∈ referenceKinds, kind ∈ taggedKinds ∧ takesArgument kind = false ∧
      '\n' ∉ kind.marker.toList := by decide
  obtain ⟨listed, plain, cleanMarker⟩ := facts kind member
  have noArgument : line.argument = [] := by
    rw [Argues, plain, if_neg Bool.false_ne_true] at argues
    exact argues
  obtain ⟨again, solid⟩ := trim_trim line.contents
  have clean : '\n' ∉ trim line.contents := unbroken_trimEnd (not_mem_dropWhile _ unbroken)
  have content : Block.solid (trim line.contents) = Block.solid line.contents := by
    rw [trim, solid_trimEnd, trimStart, solid_dropWhile fun _ blank => blank]
  obtain ⟨blanks, spaced, indents, apart⟩ : ∃ blanks,
      (if (trim line.contents).isEmpty then [] else ' ' :: trim line.contents) =
        blanks ++ trim line.contents ∧
      Indents blanks ∧ (blanks = [] → trim line.contents = []) := by
    split
    · next empty => exact ⟨[], by simpa using empty, forall_mem_nil _, fun _ => by simpa using empty⟩
    · exact ⟨[' '], rfl, indents_space, by simp⟩
  have read := line?_header indents_space (cons_ne_nil _ _) indents apart solid listed isLead
    argues
  have whole : '\n' ∉ headerText kind line [' '] (blanks ++ trim line.contents) := by
    have blank : '\n' ∉ blanks := by
      intro found
      cases indents _ found
    simp [headerText, argumentText, noArgument, isLead.unbroken, cleanMarker, blank, clean]
  refine ⟨_, _, ⟨.line read whole, .reference member rfl, ?_, rfl, ?_, fun _ _ => rfl⟩,
    congrArg (_ ++ ·) content⟩
  · simp only [composeItem, composeParagraph, composeReference, spaced]
    simp [textOf, unlines, headerText, argumentText, noArgument]
  · simp only [Piece.item, composeItem, composeParagraph, composeReference, again]

/-! ## Elements -/

/-- Another margin leaves the content of a line. -/
theorem Rebased.content {margin inserted : Text} {line again : Option Text}
    (off : Indents margin) (on : Indents inserted) (rebased : Rebased margin inserted line again) :
    solid (again.getD []) = solid (line.getD []) := by
  cases rebased with
  | blank blank => exact (solid_of_blank (all_eq_true.mp blank)).symm
  | @text line rest someText trimmed =>
    rw [Option.getD_some, Option.getD_some, ← solid_trimEnd line, trimmed, solid_append,
      solid_append, solid_of_indents on, solid_of_indents off]

/-- What is written for an element that does not flow is read as that element. -/
theorem ItemFits.exists_restored (fits : ItemFits item) (sticky : ctx.sticky = opensConstruct) :
    ∃ taken piece, Restored ctx item taken piece ∧ itemContent piece.item = itemContent item := by
  cases fits with
  | separator fits =>
    cases fits with
    | @separator line found unbroken =>
      have sound := Sound.line found unbroken
      have tokens : tokensOf [⟨[line], .separator line⟩] = [line].map .separator := rfl
      exact ⟨_, _, ⟨sound, .separator tokens, by simp [textOf, unlines, composeItem], rfl,
        (firstLine_separators sound tokens).1, fun _ _ => rfl⟩, rfl⟩
  | marked member headed =>
    refine ItemFits.restored_tagged (.marked member headed) ?_ sticky
    simp only [markedKinds, mem_cons, not_mem_nil, or_false] at member
    rcases member with rfl | rfl | rfl | rfl | rfl <;> rfl
  | run tidy fits => exact ItemFits.restored_tagged (.run tidy fits) rfl sticky
  | @code first close header lines opens ends unbroken =>
    obtain ⟨inserted, indents, sound⟩ := exists_rebased opens ends unbroken
    have content := (forall₂_rebased inserted (lines.filterMap fencedLine?)).flatMap_eq
      fun _ _ => Rebased.content (indents_margin _) indents
    exact ⟨_, _, ⟨sound, .code rfl, textOf_rebasedLexeme header _ inserted close, rfl,
      composeCode_rebased header _ _ indents, fun _ _ => rfl⟩,
      congrArg (fun text => _ ++ (_ ++ (text ++ _))) content⟩
  | reference member headed unbroken => exact restored_reference member headed unbroken
  | verbatim _ sound element =>
    exact ⟨_, _, ⟨sound, element, rfl, rfl, rfl, fun _ _ => rfl⟩, rfl⟩

/-- What does not flow is told by its kind. -/
theorem ItemFits.of_kind {kind : Construct} (fits : ItemFits item)
    (isKind : item.kind? = some kind) :
    (kind ∈ markedKinds ∧ ∃ lines, item = .paragraph (ofLines kind lines) ∧ Headed kind lines) ∨
      (∃ entries, item = .paragraph (.parameters entries)) ∨
        kind ∈ [Construct.code, .table, .referenceLink] ++ referenceKinds := by
  cases fits with
  | separator _ => cases isKind
  | marked member headed =>
    rw [BlockItem.kind?, kind_ofLines] at isKind
    cases isKind
    exact .inl ⟨member, _, rfl, headed⟩
  | run _ _ => exact .inr (.inl ⟨_, rfl⟩)
  | code _ _ _ =>
    cases isKind
    exact .inr (.inr (mem_append_left _ mem_cons_self))
  | reference member _ _ =>
    cases isKind
    exact .inr (.inr (mem_append_right _ member))
  | verbatim member _ _ =>
    cases isKind
    exact .inr (.inr (mem_append_left _ (mem_cons_of_mem _ member)))

/-- What is made of an element is written with its content. -/
theorem ElementOf.holds_written {taken : List Lexeme} {piece : Piece}
    (element : ElementOf taken piece) (sound : Sound taken) (sticky : ctx.sticky = opensConstruct)
    {policy : UnnamedPolicy} (member : item ∈ tidyItem policy piece.item) :
    Holds (composeItem ctx item) (itemContent item) := by
  rcases element.fits sound member with fits | flows
  · by_cases returns : item.kind? = some .returns
    · rcases fits.of_kind returns with ⟨_, _, rfl, _, _, rfl, isLead, _⟩ | ⟨_, rfl⟩ | other
      · exact holds_contiguous_paragraph ctx _ isLead
      · cases returns
      · exact absurd other (by decide)
    · obtain ⟨again, found, restored, same⟩ := fits.exists_restored sticky
      have content := restored.element.holds restored.sound fun lines made =>
        returns (restored.kind ▸ congrArg BlockItem.kind? made)
      rwa [restored.text, same] at content
  · cases flows with
    | items _ each =>
      refine Holds.flatMap fun item inside => ?_
      obtain ⟨group, isItem, sound⟩ := each item inside
      exact isItem.holds sound ctx
    | details headed =>
      obtain ⟨header, more, rfl, isLead, _⟩ := headed
      exact holds_contiguous_paragraph ctx _ isLead

end Reflow.Document.Block
