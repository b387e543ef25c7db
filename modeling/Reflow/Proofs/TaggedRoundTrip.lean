import Reflow.Proofs.WholeElements

/-!
# Tagged paragraphs and their texts

A paragraph with a marker, or a tidied run of parameters, that comes from a block comment is read
again from its own text: as one element of the same shape, with the same words
(`parse_composeParagraph`). What is written from that element is the same text.
-/

namespace Reflow.Document

open List RunEntry

/-- Whether a paragraph opens with a marker and is laid out as text. -/
def Paragraph.isTagged : Paragraph → Bool
  | contiguous kind _ => kind.marker != ""
  | breaking _ _ | parameters _ => true
  | _ => false

namespace Block

open Text Layout Reflow.Expr

/-! ## Written runs -/

/-- Two elements of runs that are the same separator or have the same kind, lead, name and words. -/
inductive SameEntry : RunEntry → RunEntry → Prop
  | parameter (kind : Construct) {lines again : List TagLine} (same : SameLines lines again) :
      SameEntry (.parameter ⟨kind, lines⟩) (.parameter ⟨kind, again⟩)
  | separator (line : Text) : SameEntry (.separator line) (.separator line)

variable {entry : RunEntry} {taken : List Lexeme} {paragraph : Paragraph}

theorem SameEntry.stays_eq {again : RunEntry} (same : SameEntry entry again)
    (policy : UnnamedPolicy) : again.stays policy = entry.stays policy := by
  cases same with
  | parameter kind same =>
    simp only [stays, Parameter.isUnnamed, Parameter.name, same.argument]
  | separator line => rfl

theorem Tidy.of_same {entries again : List RunEntry} (tidy : Tidy entries)
    (same : Forall₂ SameEntry entries again) : Tidy again := by
  induction tidy generalizing again with
  | last entry =>
    obtain ⟨_, _, ⟨⟩, ⟨⟩, rfl⟩ := forall₂_cons_left_iff.mp same
    exact .last _
  | next entry tidy ih =>
    obtain ⟨_, _, ⟨⟩, later, rfl⟩ := forall₂_cons_left_iff.mp same
    exact .next _ (ih later)
  | gap entry line tidy ih =>
    obtain ⟨_, _, ⟨⟩, behind, rfl⟩ := forall₂_cons_left_iff.mp same
    obtain ⟨_, _, ⟨⟩, later, rfl⟩ := forall₂_cons_left_iff.mp behind
    exact .gap _ _ (ih later)

/-! ## Elements that come from a comment -/

/-- An element of a tidied body as it comes from a comment, unless it flows. -/
inductive ItemFits : BlockItem → Prop
  | separator {line : Text} (fits : EntryFits (.separator line)) : ItemFits (.separator line)
  | marked {kind : Construct} {lines : List TagLine} (member : kind ∈ markedKinds)
      (headed : Headed kind lines) : ItemFits (.paragraph (ofLines kind lines))
  | run {entries : List RunEntry} (tidy : Tidy entries)
      (fits : ∀ entry ∈ entries, EntryFits entry) : ItemFits (.paragraph (.parameters entries))
  | code {first close : Text} {header : TagLine} {lines : List Text}
      (opens : fence? first = some header) (ends : isFenceEnd close)
      (unbroken : Unbroken (first :: (lines ++ [close]))) :
      ItemFits (.paragraph (.code header (lines.filterMap fencedLine?) (close ++ ['\n'])))
  | reference {kind : Construct} {line : TagLine} (member : kind ∈ referenceKinds)
      (headed : Headed kind [line]) (unbroken : '\n' ∉ line.contents) :
      ItemFits (.paragraph (.reference kind line))
  | verbatim {kind : Construct} {taken : List Lexeme}
      (member : kind ∈ [Construct.table, .referenceLink]) (sound : Sound taken)
      (element : ElementOf taken
        (.plain (textOf taken) (.paragraph (.verbatim kind (textOf taken))))) :
      ItemFits (.paragraph (.verbatim kind (textOf taken)))

/-- Prose by itself or bullet items, as they come from a comment. -/
inductive Flows : BlockItem → Prop
  | items {items : List ListItem} (someItem : items ≠ [])
      (each : ∀ item ∈ items, ∃ group, ItemOf group item ∧ Sound group) :
      Flows (.paragraph (.listItems items))
  | details {lines : List TagLine} (headed : Headed .details lines) :
      Flows (.paragraph (.contiguous .details lines))

theorem ElementOf.fits {piece : Piece} (element : ElementOf taken piece) (sound : Sound taken)
    {policy : UnnamedPolicy} {item : BlockItem} (member : item ∈ tidyItem policy piece.item) :
    ItemFits item ∨ Flows item := by
  cases element with
  | separator tokens =>
    obtain rfl := mem_singleton.mp member
    exact .inl (.separator ((EntryOf.separator tokens).fits sound))
  | marked listed tokens =>
    rw [Piece.item, tidyItem_other policy fun entries same =>
      ofLines_ne_parameters _ _ _ (BlockItem.paragraph.inj same)] at member
    obtain rfl := mem_singleton.mp member
    exact .inl (.marked listed (headed_of_tokens sound tokens))
  | @run groups entries whole each =>
    have fits : ∀ entry ∈ entries.map (·.2), EntryFits entry := by
      intro entry inside
      obtain ⟨value, among, rfl⟩ := mem_map.mp inside
      obtain ⟨group, here, entryOf⟩ := each.exists_of_mem among
      exact entryOf.fits (Sound.of_mem (whole ▸ sound) here)
    rcases mem_tidyItem_run member with ⟨line, rfl, inside⟩ | ⟨rfl, kept⟩
    · exact .inl (.separator (fits _ inside))
    · exact .inl (.run (tidy_tidyRun kept) fun entry inside =>
        fits entry (mem_of_mem_tidyRun inside))
  | code tokens =>
    obtain rfl := mem_singleton.mp member
    obtain ⟨⟨source, token⟩, rfl, rfl⟩ := exists_single tokens
    have unbroken := sound.unbroken
    rw [flatMap_singleton] at unbroken
    cases sound.known _ mem_cons_self with
    | line found => exact (Token.of_line? found).elim
    | code opens _ ends => exact .inl (.code opens ends unbroken)
  | @reference kind line listed tokens =>
    obtain rfl := mem_singleton.mp member
    have withProse : tokensOf taken = .header kind line :: ([] : List TagLine).map .text := tokens
    refine .inl (.reference listed (headed_of_tokens sound withProse) fun inside => ?_)
    obtain ⟨first, rfl, same⟩ := exists_single tokens
    obtain ⟨source, _, found, clean⟩ := sound.head (by simp [same])
    rw [same] at found
    obtain ⟨_, _, _, _, _, _, _, _, rfl, _, rfl, _⟩ := Token.of_line? found
    exact clean (by simp [inside])
  | table tokens =>
    obtain rfl := mem_singleton.mp member
    exact .inl (.verbatim (by decide) sound (.table tokens))
  | link tokens =>
    obtain rfl := mem_singleton.mp member
    exact .inl (.verbatim (by decide) sound (.link tokens))
  | items someItem whole each =>
    obtain rfl := mem_singleton.mp member
    refine .inr (.items someItem fun item inside => ?_)
    obtain ⟨group, here, isItem⟩ := each.exists_of_mem inside
    exact ⟨group, isItem, Sound.of_mem (whole ▸ sound) here⟩
  | details someLine tokens =>
    obtain rfl := mem_singleton.mp member
    obtain ⟨line, rest, rfl⟩ := exists_cons_of_ne_nil someLine
    obtain ⟨first, _, rfl, same, _⟩ := map_eq_cons_iff.mp tokens
    obtain ⟨source, _, found, _⟩ := sound.head (by simp [same])
    rw [same] at found
    obtain ⟨_, isLead, noArgument, _⟩ := Token.of_line? found
    exact .inr (.details ⟨line, rest, rfl, isLead, noArgument⟩)

theorem fits_of_parse {text : Text} {comment : BlockComment}
    (parsed : parse text = .ok comment) {policy : UnnamedPolicy} {item : BlockItem}
    (member : item ∈ comment.items.flatMap (tidyItem policy)) : ItemFits item ∨ Flows item := by
  obtain ⟨_, opening, lexemes, closing, ending, commented, rfl⟩ := parse_eq_ok_iff.mp parsed
  obtain ⟨groups, whole, each⟩ := exists_groups commented.taken
  have sound : Sound groups.flatten := whole ▸ ⟨commented.known, commented.cleanBody⟩
  obtain ⟨_, inside, here⟩ := mem_flatMap.mp member
  obtain ⟨piece, among, rfl⟩ := mem_map.mp inside
  obtain ⟨taken, listed, element⟩ := each.exists_of_mem among
  exact element.fits (sound.of_mem listed) here

/-! ## Reading paragraphs again -/

/-- What is read again from the text of a construct has its lead, its argument and its words. -/
theorem Rereads.exists_same {kind : Construct} {header : TagLine} {more : List TagLine}
    {again : List TagLine} (rereads : Rereads kind header (allWords (header :: more)) taken again) :
    ∃ first rest, again = first :: rest ∧
      tokensOf taken = .header kind first :: rest.map .text ∧
        SameLines (header :: more) (first :: rest) := by
  obtain ⟨first, rest, rfl, lead, argument, tokens⟩ := rereads.tokens
  exact ⟨first, rest, rfl, tokens, ⟨lead, congrArg some argument, rereads.words⟩⟩

/-- An element of a run is read again from its text. -/
theorem EntryFits.rereads {ctx : Context} (sticky : ctx.sticky = opensConstruct)
    (columns : Columns) (fits : EntryFits entry) :
    ∃ taken value, EntryOf taken value ∧ Sound taken ∧ SameEntry entry value.2 ∧
      textOf taken = entry.compose ctx columns := by
  cases fits with
  | @parameter kind _ parameterKind headed =>
    obtain ⟨header, more, rfl, isLead, argues⟩ := headed
    have kinds : kind ∈ taggedKinds ∧ takesArgument kind := by
      cases kind with
      | param | tparam => decide
      | _ => cases parameterKind
    have isWord : IsWord header.argument := by
      rw [Argues, if_pos kinds.2] at argues
      exact argues
    obtain ⟨gap, blanks, shape, gapIndents, someGap, indents, someBlank⟩ :=
      parameterHeader_eq kind.marker.toList header.argument columns
    obtain ⟨taken, again, rereads, written⟩ := rereads_contiguous kinds.1 isLead argues gapIndents
      someGap sticky indents someBlank (joinLines (header :: more))
    rw [words_joinLines] at rereads
    obtain ⟨first, rest, rfl, tokens, same⟩ := rereads.exists_same
    refine ⟨taken, _, .parameter parameterKind tokens, rereads.sound, .parameter kind same, ?_⟩
    have named : argumentText gap header.argument = gap ++ header.argument := by
      rw [argumentText, if_neg (by simpa using isWord.nonempty)]
    rw [written, named, ← shape]
    rfl
  | @separator line found unbroken =>
    have sound := Sound.line found unbroken
    have tokens : tokensOf [⟨[line], .separator line⟩] = [line].map .separator := rfl
    obtain ⟨topLine, _⟩ := firstLine_separators sound tokens
    refine ⟨_, _, .separator tokens, sound, ?_, by simp [textOf, unlines, RunEntry.compose]⟩
    rw [topLine]
    exact .separator _

/-- What is read again from each of some texts is read from all of them together. -/
theorem exists_rereading {ι γ : Type} {related : List Lexeme → γ → Prop} {alike : ι → γ → Prop}
    {write : ι → Text} {items : List ι}
    (each : ∀ item ∈ items, ∃ taken value, related taken value ∧ Sound taken ∧ alike item value ∧
      textOf taken = write item) :
    ∃ groups values, Forall₂ related groups values ∧ Sound groups.flatten ∧
      Forall₂ alike items values ∧ textOf groups.flatten = items.flatMap write := by
  induction items with
  | nil => exact ⟨[], [], .nil, .nil, .nil, rfl⟩
  | cons item items ih =>
    obtain ⟨here, later⟩ := forall_mem_cons.mp each
    obtain ⟨taken, value, one, sound, same, written⟩ := here
    obtain ⟨groups, values, others, laterSound, sameLater, writtenLater⟩ := ih later
    refine ⟨taken :: groups, value :: values, .cons one others, sound.append laterSound,
      .cons same sameLater, ?_⟩
    rw [flatten_cons, textOf_append, written, writtenLater, flatMap_cons]

/-- Two paragraphs of one shape and kind with the same leads, arguments, separators and words. -/
inductive SameParagraph : Paragraph → Paragraph → Prop
  | contiguous (kind : Construct) {lines again : List TagLine} (same : SameLines lines again) :
      SameParagraph (.contiguous kind lines) (.contiguous kind again)
  | breaking (kind : Construct) {lines again : List TagLine} (same : SameLines lines again) :
      SameParagraph (.breaking kind lines) (.breaking kind again)
  | parameters {entries again : List RunEntry} (same : Forall₂ SameEntry entries again) :
      SameParagraph (.parameters entries) (.parameters again)

theorem SameLines.joinLines_eq {lines again : List TagLine} (same : SameLines lines again) :
    joinLines again = joinLines lines := by
  rw [Document.joinLines_eq, Document.joinLines_eq, same.words]

theorem takeAll_of_element {piece : Piece} (found : element taken = some ([piece], [])) :
    takeAll element taken = ([piece], []) :=
  shortens_element.takeAll_eq (.again found (.stop rfl))

/-- A construct with a marker is read again from its text. -/
theorem exists_marked {kind : Construct} (member : kind ∈ markedKinds) {header : TagLine}
    {more : List TagLine} {again : List TagLine}
    (rereads : Rereads kind header (words (joinLines (header :: more))) taken again) :
    ∃ piece, ElementOf taken piece ∧ piece.item = .paragraph (ofLines kind again) ∧
      SameLines (header :: more) again := by
  rw [words_joinLines] at rereads
  obtain ⟨first, rest, rfl, tokens, same⟩ := rereads.exists_same
  exact ⟨_, .marked member tokens, rfl, same⟩

/-- The text of a paragraph that comes from a comment is that of an element with the same words. -/
theorem ItemFits.exists_tagged (fits : ItemFits (.paragraph paragraph))
    (tagged : paragraph.isTagged) (ctx : Context) (sticky : ctx.sticky = opensConstruct) :
    ∃ taken piece again, Sound taken ∧ textOf taken = composeParagraph ctx paragraph ∧
      ElementOf taken piece ∧ piece.item = .paragraph again ∧ SameParagraph paragraph again ∧
        ∀ entries, piece.item = .paragraph (.parameters entries) → Tidy entries := by
  have someGap : [' '] ≠ [] := cons_ne_nil _ _
  cases fits with
  | @marked kind _ member headed =>
    obtain ⟨header, more, rfl, isLead, argues⟩ := headed
    have facts : ∀ kind ∈ markedKinds, kind ∈ taggedKinds ∧
        (kind.strategy = .contiguous ∧ takesArgument kind = false ∧
          headerOf kind = kind.marker.toList ++ [' '] ∨ kind.strategy = .breaking) := by decide
    obtain ⟨listed, ⟨strategy, plain, headerEq⟩ | strategy⟩ := facts kind member
    · have noArgument : header.argument = [] := by
        rw [Argues, plain, if_neg Bool.false_ne_true] at argues
        exact argues
      obtain ⟨taken, again, rereads, written⟩ := rereads_contiguous listed isLead argues indents_space
        someGap sticky indents_space someGap (joinLines (header :: more))
      obtain ⟨piece, element, made, same⟩ := exists_marked member rereads
      rw [ofLines, strategy] at made ⊢
      refine ⟨taken, piece, _, rereads.sound, ?_, element, made, .contiguous kind same,
        by simp [made]⟩
      rw [written, composeParagraph, headerEq, noArgument]
      rfl
    · obtain ⟨taken, again, rereads, written⟩ := rereads_breaking listed isLead argues indents_space
        someGap sticky (joinLines (header :: more))
      obtain ⟨piece, element, made, same⟩ := exists_marked member rereads
      rw [ofLines, strategy] at made ⊢
      refine ⟨taken, piece, _, rereads.sound, ?_, element, made, .breaking kind same,
        by simp [made]⟩
      rw [written, composeParagraph, composeBreaking, headerText]
      simp [argumentText]
  | @run entries tidy fits =>
    obtain ⟨groups, values, each, sound, same, written⟩ :=
      exists_rereading fun entry member => (fits entry member).rereads sticky
        (columnsOf (entries.filterMap parameter?))
    rw [← forall₂_map_right_iff] at same
    refine ⟨_, _, _, sound, written, .run rfl each, rfl, .parameters same, fun _ runHere => ?_⟩
    cases runHere
    exact tidy.of_same same
  | _ => cases tagged

/-- The markers and names of a run decide its columns. -/
theorem columnsOf_same {entries again : List RunEntry} (same : Forall₂ SameEntry entries again) :
    columnsOf (again.filterMap parameter?) =
      columnsOf (entries.filterMap parameter?) := by
  have widths : ∀ width : Text → Text → Nat,
      (again.filterMap parameter?).map (fun entry => width entry.marker entry.name) =
        (entries.filterMap parameter?).map fun entry => width entry.marker entry.name := by
    intro width
    induction same with
    | nil => rfl
    | cons one _ ih =>
      cases one with
      | parameter kind same =>
        have name := congrArg (fun argument => argument.getD []) same.argument
        exact congrArg₂ List.cons (congrArg (width kind.marker.toList) name) ih
      | separator line => exact ih
  have markers := widths fun marker _ => textWidth marker + 1
  have names := widths fun _ name => textWidth name + 1
  rw [columnsOf, columnsOf, markers, names]

theorem SameEntry.compose_eq (same : SameEntry entry again) (ctx : Context) (columns : Columns) :
    again.compose ctx columns = entry.compose ctx columns := by
  cases same with
  | parameter kind same =>
    have name := congrArg (fun argument => argument.getD []) same.argument
    simp only [RunEntry.compose, Parameter.compose, Parameter.lead, Parameter.text,
      Parameter.marker, Parameter.name, same.lead, same.joinLines_eq, name]
  | separator line => rfl

theorem argument_head (lines : List TagLine) :
    (lines.head?.getD {}).argument = (lines.head?.map (·.argument)).getD [] := by
  cases lines <;> rfl

/-- What is written depends on the shape, the leads, the arguments and the words alone. -/
theorem composeParagraph_same (ctx : Context) {again : Paragraph}
    (same : SameParagraph paragraph again) :
    composeParagraph ctx again = composeParagraph ctx paragraph := by
  cases same with
  | contiguous kind same => rw [composeParagraph, composeParagraph, same.lead, same.joinLines_eq]
  | breaking kind same =>
    have lead : ∀ lines : List TagLine, (lines.head?.getD {}).lead = leadOf lines := by
      intro lines
      cases lines <;> rfl
    simp only [composeParagraph, composeBreaking, lead, argument_head, same.lead, same.argument,
      same.joinLines_eq]
  | parameters same =>
    rw [composeParagraph, composeParagraph, composeRun, composeRun, columnsOf_same same]
    exact same.flatMap_eq fun _ _ one => one.compose_eq ctx _

/-- A paragraph with a marker, or a tidied run of parameters, of a comment that was read: its text
between an opening and a closing line is read as one element of the same shape, with the same leads,
arguments, separators and words, and that element is written as the same text. -/
theorem parse_composeParagraph {text : Text} {comment : BlockComment}
    (parsed : parse text = .ok comment) {policy : UnnamedPolicy} {paragraph : Paragraph}
    (member : .paragraph paragraph ∈ comment.items.flatMap (tidyItem policy))
    (tagged : paragraph.isTagged) (style : Style)
    (limit : byteLength ("/**\n".toList ++
      composeParagraph { style, sticky := opensConstruct } paragraph ++ " */\n".toList) ≤
        inputLimit) :
    ∃ again, parse ("/**\n".toList ++
        composeParagraph { style, sticky := opensConstruct } paragraph ++ " */\n".toList) =
          .ok ⟨"/**\n".toList, [.paragraph again], " */\n".toList⟩ ∧
      SameParagraph paragraph again ∧
      composeParagraph { style, sticky := opensConstruct } again =
        composeParagraph { style, sticky := opensConstruct } paragraph := by
  have fits := (fits_of_parse parsed member).resolve_right fun flows => by
    cases flows <;> cases tagged
  obtain ⟨taken, piece, again, sound, written, element, made, same, tidy⟩ :=
    fits.exists_tagged tagged { style, sticky := opensConstruct } rfl
  have found := element.element_eq tidy (parted_nil _)
  rw [append_nil] at found
  rw [← written] at limit ⊢
  refine ⟨again, ?_, same, ?_⟩
  · rw [← made]
    exact parse_of_sound sound (takeAll_of_element found) limit
  · rw [composeParagraph_same _ same, written]

/-- A run whose first parameter has no name. -/
def mixedRun : List RunEntry :=
  [.parameter ⟨.param, [⟨" * ".toList, "<unnamed>".toList, "gone".toList⟩]⟩,
    .separator " *\n".toList,
    .parameter ⟨.tparam, [⟨" * ".toList, "T".toList, "aa bb".toList⟩]⟩,
    .separator " *\n".toList,
    .parameter ⟨.param, [⟨" * ".toList, "x".toList, "- cc dd".toList⟩]⟩]

theorem parse_mixedRun : parse
    "/**\n * @param <unnamed> gone\n *\n * @tparam T aa bb\n *\n * @param x - cc dd\n */\n".toList =
      .ok ⟨"/**\n".toList, [.paragraph (.parameters mixedRun)], " */\n".toList⟩ := by
  exact parse_of_lines [" * @param <unnamed> gone".toList, " *".toList, " * @tparam T aa bb".toList,
    " *".toList, " * @param x - cc dd".toList] (by decide +kernel) (by decide) rfl
    (by decide +kernel)

theorem parse_namedRun :
    ∃ again, parse ("/**\n".toList ++
        " * @tparam T aa\n * \t\t\t bb\n *\n * @param  x - cc\n * \t\t\t dd\n".toList ++
          " */\n".toList) = .ok ⟨"/**\n".toList, [.paragraph again], " */\n".toList⟩ ∧
      SameParagraph (.parameters (mixedRun.drop 2)) again ∧
      composeParagraph { style := { width := 17 }, sticky := opensConstruct } again =
        " * @tparam T aa\n * \t\t\t bb\n *\n * @param  x - cc\n * \t\t\t dd\n".toList := by
  have written : composeParagraph { style := { width := 17 }, sticky := opensConstruct }
      (.parameters (mixedRun.drop 2)) =
        " * @tparam T aa\n * \t\t\t bb\n *\n * @param  x - cc\n * \t\t\t dd\n".toList := by
    decide +kernel
  have kept : .paragraph (.parameters (mixedRun.drop 2)) ∈
      List.flatMap (tidyItem .drop) [.paragraph (.parameters mixedRun)] := by
    decide +kernel
  have found := parse_composeParagraph parse_mixedRun kept rfl { width := 17 }
  rw [written] at found
  exact found (by decide +kernel)

end Block

end Reflow.Document
