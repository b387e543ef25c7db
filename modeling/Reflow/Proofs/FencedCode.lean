import Reflow.Proofs.ElementContent
import Reflow.Proofs.Layout.Margins
import Reflow.Proofs.TaggedRoundTrip

/-!
# Fenced code read again

Writing fenced code takes the common margin off its lines, puts the lead of the header and a tab in
front of each and trims its end. Lines that have no common margin get one this way, namely what is
inserted (`margin_shifted`). So the margin that is found when the text is read again is the one that
was inserted, and writing the code again changes nothing (`parse_composeCode`).
-/

namespace Reflow.Document.Block

open Text Layout Reflow.Expr List

/-! ## Lines between fences -/

/-- A line is blank exactly if it was blank. Otherwise it is the line without blanks at its end and
with another margin in front. -/
inductive Rebased (margin inserted : Text) : Option Text → Option Text → Prop
  | blank {line : Option Text} (blank : isBlankText (line.getD [])) :
      Rebased margin inserted line none
  | text {line rest : Text} (someText : isBlankText line = false)
      (trimmed : trimEnd line = margin ++ rest) :
      Rebased margin inserted (some line) (some (inserted ++ rest))

/-- What is read of a flush line that is written between fences. -/
def rebased (inserted line : Text) : Option Text :=
  if isBlankText line then none else some (inserted ++ line)

theorem getD_rebased (inserted line : Text) :
    (rebased inserted line).getD [] = shifted inserted line := by
  rw [rebased, shifted]
  split <;> rfl

def flushBody (body : List (Option Text)) : List Text :=
  flushLines (body.map (·.getD []))

theorem forall₂_rebased (inserted : Text) (body : List (Option Text)) :
    Forall₂ (Rebased (margin (body.map (·.getD []))) inserted) body
      ((flushBody body).map (rebased inserted)) := by
  rw [flushBody, flushLines_eq, map_map, map_map, forall₂_map_right_iff, forall₂_same]
  intro line member
  have inside : line.getD [] ∈ body.map (·.getD []) := mem_map_of_mem member
  rw [Function.comp_apply, Function.comp_apply]
  cases blank : isBlankText (line.getD []) with
  | true =>
    rw [flushLine_of_blank blank]
    exact .blank blank
  | false =>
    obtain ⟨trimmed, someText⟩ := trimEnd_of_mem inside blank
    rw [rebased, if_neg (ne_true_of_eq_false someText)]
    cases line with
    | none => cases blank
    | some line => exact .text blank trimmed

def fencedLines (lead : Text) (body : List (Option Text)) : List Text :=
  (flushBody body).map fun line => trimEnd (lead ++ '\t' :: line)

/-- Fenced code is written from the lines between its fences without their margin. -/
theorem composeCode_eq (header : TagLine) (body : List (Option Text)) (close : Text) :
    composeCode header body close =
      unlines ((header.lead ++ ("@code".toList ++ header.argument)) ::
        fencedLines header.lead body) ++ close := by
  have lines : (dedent (body.map (·.getD []))).flatMap
      (fun line => trimEnd (header.lead ++ '\t' :: line) ++ ['\n']) =
        unlines (fencedLines header.lead body) := by
    rw [fencedLines, flushBody, flushLines, unlines, map_map, flatMap_map]
    refine flatMap_congr fun line _ => ?_
    have trimmed := trimEnd_append_trimEnd (header.lead ++ ['\t']) line
    simp only [append_assoc, singleton_append] at trimmed
    rw [Function.comp_apply, trimmed]
  rw [composeCode, lines, unlines_cons]
  simp

/-- Writing depends on the lines without their margin alone. -/
theorem composeCode_rebased (header : TagLine) (body : List (Option Text))
    (close : Text) {inserted : Text} (indents : Indents inserted) :
    composeCode header ((flushBody body).map (rebased inserted)) close =
      composeCode header body close := by
  have texts : ((flushBody body).map (rebased inserted)).map (·.getD []) =
      (flushBody body).map (shifted inserted) := by
    rw [map_map]
    exact map_congr_left fun line _ => getD_rebased inserted line
  have same : flushBody ((flushBody body).map (rebased inserted)) = flushBody body := by
    rw [flushBody, texts]
    exact flushLines_shifted indents _
  rw [composeCode_eq, composeCode_eq, fencedLines, fencedLines, same]

/-! ## Reading lines between fences -/

variable {line text hint close : Text} {header : TagLine} {body : List (Option Text)}

/-- No line that is read between fences would close them. -/
theorem free_of_fencedLine? {text : Option Text} (found : fencedLine? line = some text) :
    stripFront? "@endcode".toList ((text.getD []).dropWhile isIndent) = none := by
  unfold fencedLine? at found
  split at found
  · cases found
  · dsimp only at found
    split at found
    · cases found
      rfl
    · split at found
      · cases found
      · next free =>
        cases found
        simpa using free

/-- What no text begins with behind indentation, no front of it begins with. -/
theorem free_of_front {mark indents back : Text} (someMark : mark ≠ []) (all : Indents indents)
    (free : stripFront? mark ((indents ++ (text ++ back)).dropWhile isIndent) = none) :
    stripFront? mark (text.dropWhile isIndent) = none := by
  cases found : stripFront? mark (text.dropWhile isIndent) with
  | none => rfl
  | some more =>
    have begins := stripFront?_eq_some.mp found
    have someText : (text.dropWhile isIndent).isEmpty = false := by
      rw [begins]
      simp [someMark]
    have whole : (indents ++ (text ++ back)).dropWhile isIndent = mark ++ (more ++ back) := by
      rw [dropWhile_append_of_pos all, dropWhile_append,
        if_neg (ne_true_of_eq_false someText), begins, append_assoc]
    rw [stripFront?_eq_some.mpr whole] at free
    cases free

/-- Lines without their margin do not close fences if they did not with it. -/
theorem free_flushLine {lines : List Text} (member : line ∈ lines)
    (free : stripFront? "@endcode".toList (line.dropWhile isIndent) = none) :
    stripFront? "@endcode".toList ((flushLine lines line).dropWhile isIndent) = none := by
  cases blank : isBlankText line with
  | true => rw [flushLine_of_blank blank]; rfl
  | false =>
    obtain ⟨trimmed, _⟩ := trimEnd_of_mem member blank
    obtain ⟨back, whole, _⟩ := exists_dropEndWhile isBlank line
    have split : line = margin lines ++ (flushLine lines line ++ back) := by
      rw [← append_assoc, ← trimmed]
      exact whole
    rw [split] at free
    exact free_of_front (by decide) (indents_margin lines) free

section Leads

variable {front blanks : Text} (outside : Indents front)
  (inside : Indents blanks) (someBlank : blanks ≠ [])

include outside inside someBlank

/-- A flush line behind a lead and a tab is read between fences with what was inserted. Of the
blanks in the lead, the first one belongs to the mark of the line. -/
theorem fencedLine?_written (shape : line = [] ∨ isBlankText line = false)
    (trimmed : trimEnd line = line)
    (free : stripFront? "@endcode".toList (line.dropWhile isIndent) = none) :
    fencedLine? (trimEnd ((front ++ '*' :: blanks) ++ '\t' :: line)) =
      some (rebased (blanks.drop 1 ++ ['\t']) line) := by
  have kept : trimEnd ((front ++ '*' :: blanks) ++ '\t' :: line) =
      front ++ '*' :: trimEnd (blanks ++ '\t' :: line) := by
    rw [append_assoc, cons_append]
    exact dropEndWhile_kept rfl _ _
  have tabbed : Indents (blanks ++ ['\t']) := inside.append indents_tab
  rw [kept]
  rcases shape with rfl | someText
  · have nothing : trimEnd (blanks ++ ['\t']) = [] :=
      dropEndWhile_of_all fun c member => isBlank_of_isIndent (tabbed c member)
    rw [nothing, fencedLine?, star?_append outside rfl]
    rfl
  · obtain ⟨first, others, rfl⟩ := exists_cons_of_ne_nil someBlank
    have behind : trimEnd (first :: others ++ '\t' :: line) =
        first :: (others ++ ['\t'] ++ line) := by
      have moved := trimEnd_append someText (first :: others ++ ['\t'])
      rw [trimmed] at moved
      simpa using moved
    have othersTabbed : Indents (others ++ ['\t']) := fun c member =>
      tabbed c (mem_cons_of_mem _ member)
    have someContents : (others ++ ['\t'] ++ line).isEmpty = false := by simp
    have indented : (first :: (others ++ ['\t'] ++ line)).head?.all isIndent :=
      inside first mem_cons_self
    rw [behind, fencedLine?, star?_append outside indented, rebased,
      if_neg (ne_true_of_eq_false someText)]
    dsimp only
    rw [drop_one, drop_one, tail_cons, tail_cons, someContents,
      dropWhile_append_of_pos othersTabbed, free]
    rfl

end Leads

/-! ## Reading fences -/

theorem hint?_again {input rest : Text} (found : hint? input = some (hint, rest)) :
    hint? hint = some (hint, []) ∧ hint.head? = some '\x7b' := by
  unfold hint? at found
  split at found
  · next c text =>
    split at found
    · cases found
    · next noBreak =>
      split at found
      · next tail =>
        cases found
        have all : ∀ d ∈ text.takeWhile (fun d => d != '\x7d' && d != '\n'),
            (d != '\x7d' && d != '\n') = true := all_eq_true.mp all_takeWhile
        have stop : ∀ d ∈ (['\x7d'] : Text).head?, (d != '\x7d' && d != '\n') = false := by
          rintro d ⟨⟩
          rfl
        obtain ⟨taken, dropped⟩ := takeWhile_stop all stop
        refine ⟨?_, rfl⟩
        rw [cons_append, cons_append, hint?, if_neg noBreak, dropped, taken]
        rfl
      · cases found
  · cases found

theorem fenceHint?_again (found : fenceHint? text = some hint) :
    fenceHint? hint = some hint ∧ ∀ c ∈ hint.head?, isWordChar c = false := by
  unfold fenceHint? at found
  dsimp only at found
  split at found
  · next taken rest hinted =>
    split at found
    · cases found
      obtain ⟨again, brace⟩ := hint?_again hinted
      obtain ⟨more, rfl⟩ : ∃ more, hint = '\x7b' :: more := List.head?_eq_some_iff.mp brace
      have solid : ('\x7b' :: more).dropWhile isIndent = '\x7b' :: more :=
        dropWhile_cons_of_neg (by decide)
      refine ⟨?_, fun c first => ?_⟩
      · rw [fenceHint?, solid, again]
        rfl
      · cases first
        rfl
    · cases found
  · split at found
    · cases found
      exact ⟨rfl, fun c first => by cases first⟩
    · cases found

theorem opening_code (ends : ∀ c ∈ hint.head?, isWordChar c = false) :
    opening ("@code".toList ++ hint) = .command .code hint := by
  have wordChars : "code".toList.all isWordChar := by decide
  obtain ⟨taken, dropped⟩ := takeWhile_stop (all_eq_true.mp wordChars) ends
  rw [opening_eq_iff]
  refine ⟨"code".toList ++ hint, rfl, ?_, dropped.symm⟩
  rw [taken]
  decide

/-- The header of fenced code is read again from its lead and its hint. -/
theorem fence?_again (found : fence? line = some header) :
    fence? (header.lead ++ ("@code".toList ++ header.argument)) = some header := by
  obtain ⟨isLead, _⟩ := of_fence? found
  unfold fence? at found
  split at found
  · cases found
  · split at found
    · next text _ =>
      obtain ⟨hint, hinted, rfl⟩ := Option.map_eq_some_iff.mp found
      obtain ⟨again, ends⟩ := fenceHint?_again hinted
      have solid : ∀ c ∈ ("@code".toList ++ hint).head?, isIndent c = false := by
        rintro c ⟨⟩
        rfl
      obtain ⟨front, rest, star, leadEq, bodyEq⟩ := star?_lead isLead solid
      rw [fence?_eq star, bodyEq, opening_code ends]
      dsimp only
      rw [again, leadEq]
      rfl
    · cases found

/-- Fenced code by itself is one element of a body. -/
theorem element_code {first : Lexeme} (same : first.token = .code header body close) :
    element [first] =
      some ([.plain (textOf [first]) (.paragraph (.code header body close))], []) := by
  have elementOf : ElementOf [first] _ := .code (congrArg (· :: []) same)
  have found := elementOf.element_eq (by simp [Piece.item]) (parted_nil _)
  rwa [append_nil] at found

/-- A body between the opening and the closing line of any comment that is read. -/
theorem parse_framed {frame : BlockComment} (parsed : parse text = .ok frame)
    {taken : List Lexeme} (sound : Sound taken) {pieces : List Piece}
    (found : takeAll element taken = (pieces, []))
    (limit : byteLength (frame.start ++ textOf taken ++ frame.stop) ≤ inputLimit) :
    parse (frame.start ++ textOf taken ++ frame.stop) =
      .ok { frame with items := pieces.map Piece.item } := by
  obtain ⟨_, opening, lexemes, closing, ending, commented, rfl⟩ := parse_eq_ok_iff.mp parsed
  refine parse_eq_ok_iff.mpr ⟨limit, opening, taken, closing, ending, ?_, ?_⟩
  · exact { commented with
      known := sound.known
      taken := by rw [found]
      cleanBody := sound.unbroken
      whole := by simp [textOf] }
  · rw [found]

def rebasedLexeme (header : TagLine) (body : List (Option Text))
    (inserted close : Text) : Lexeme where
  source := (header.lead ++ ("@code".toList ++ header.argument)) ::
    (fencedLines header.lead body ++ [close])
  token := .code header ((flushBody body).map (rebased inserted)) (close ++ ['\n'])

theorem textOf_rebasedLexeme (header : TagLine) (body : List (Option Text))
    (inserted close : Text) :
    textOf [rebasedLexeme header body inserted close] =
      composeCode header body (close ++ ['\n']) := by
  rw [composeCode_eq, textOf, flatMap_singleton, rebasedLexeme, ← cons_append,
    unlines_append, unlines_cons close, unlines_nil]

section Code

variable {first close : Text} {header : TagLine} {lines : List Text}
  (opens : fence? first = some header) (ends : isFenceEnd close)

theorem free_flushBody (member : line ∈ flushBody (lines.filterMap fencedLine?)) :
    stripFront? "@endcode".toList (line.dropWhile isIndent) = none := by
  rw [flushBody, flushLines_eq] at member
  obtain ⟨text, inside, rfl⟩ := mem_map.mp member
  refine free_flushLine inside ?_
  obtain ⟨contents, among, rfl⟩ := mem_map.mp inside
  obtain ⟨given, _, found⟩ := mem_filterMap.mp among
  exact free_of_fencedLine? found

include opens in
/-- What is written for fenced code has no line breaks inside its lines. -/
theorem unbroken_rebased (unbroken : Unbroken (first :: (lines ++ [close]))) :
    Unbroken ((header.lead ++ ("@code".toList ++ header.argument)) ::
      (fencedLines header.lead (lines.filterMap fencedLine?) ++ [close])) := by
  obtain ⟨isLead, gap, blanks, lineEq, _, _⟩ := of_fence? opens
  have texts : Unbroken ((lines.filterMap fencedLine?).map (·.getD [])) := by
    intro text member
    obtain ⟨contents, among, rfl⟩ := mem_map.mp member
    obtain ⟨line, inside, found⟩ := mem_filterMap.mp among
    refine (of_fencedLine? found).2 (unbroken line ?_)
    exact mem_cons_of_mem _ (mem_append_left _ inside)
  intro line member
  rcases mem_cons.mp member with rfl | member
  · have whole := unbroken first mem_cons_self
    rw [lineEq] at whole
    refine not_mem_append isLead.unbroken (not_mem_append (by decide) fun found => whole ?_)
    simp [found]
  · rcases mem_append.mp member with inside | last
    · obtain ⟨flush, among, rfl⟩ := mem_map.mp inside
      obtain ⟨text, held, rfl⟩ := mem_map.mp among
      have clean : '\n' ∉ '\t' :: trimEnd text := not_mem_cons_of_ne_of_not_mem (by decide)
        (unbroken_trimEnd (unbroken_dedent texts text held))
      exact unbroken_trimEnd (not_mem_append isLead.unbroken clean)
    · obtain rfl := mem_singleton.mp last
      exact unbroken line (mem_cons_of_mem _ (mem_append_right _ mem_cons_self))

include opens ends in
/-- Fenced code that was read is read again from what is written for it. -/
theorem exists_rebased (unbroken : Unbroken (first :: (lines ++ [close]))) :
    ∃ inserted, Indents inserted ∧
      Sound [rebasedLexeme header (lines.filterMap fencedLine?) inserted close] := by
  obtain ⟨⟨front, blanks, leadEq, outside, inside, someBlank⟩, _⟩ := of_fence? opens
  have again := fence?_again opens
  have clean := unbroken_rebased opens unbroken
  have read : ∀ line ∈ flushBody (lines.filterMap fencedLine?),
      fencedLine? (trimEnd (header.lead ++ '\t' :: line)) =
        some (rebased (blanks.drop 1 ++ ['\t']) line) := by
    intro line member
    obtain ⟨shape, trimmed⟩ := flushLine_cases member
    rw [leadEq]
    exact fencedLine?_written outside inside someBlank shape trimmed (free_flushBody member)
  have values : (fencedLines header.lead (lines.filterMap fencedLine?)).filterMap fencedLine? =
      (flushBody (lines.filterMap fencedLine?)).map (rebased (blanks.drop 1 ++ ['\t'])) := by
    rw [fencedLines, filterMap_map, ← filterMap_eq_map']
    exact filterMap_congr read
  have each : ∀ line ∈ fencedLines header.lead (lines.filterMap fencedLine?),
      isFenced line := by
    intro line member
    obtain ⟨flush, among, rfl⟩ := mem_map.mp member
    rw [isFenced, read flush among]
    rfl
  have known := IsToken.code again each ends
  rw [values] at known
  refine ⟨blanks.drop 1 ++ ['\t'], fun c member => ?_, ?_, ?_⟩
  · exact (mem_append.mp member).elim (fun early => inside c (mem_of_mem_drop early))
      (indents_tab c)
  · exact forall_mem_singleton.mpr known
  · rw [flatMap_singleton]
    exact clean

end Code

/-- The lines of fenced code in a comment that was read. -/
theorem ItemFits.exists_code (fits : ItemFits (.paragraph (.code header body close))) :
    ∃ first lines last, fence? first = some header ∧ isFenceEnd last ∧
      body = lines.filterMap fencedLine? ∧ close = last ++ ['\n'] ∧
      Unbroken (first :: (lines ++ [last])) := by
  generalize whole : BlockItem.paragraph (.code header body close) = item at fits
  cases fits with
  | code opens ends unbroken =>
    cases whole
    exact ⟨_, _, _, opens, ends, rfl, rfl, unbroken⟩
  | marked _ _ =>
    unfold ofLines at whole
    split at whole <;> cases whole
  | _ => cases whole

/-- Fenced code of a comment that was read, written between the opening and the closing line of any
comment: it is read as one element with the same header and the same closing line. Its lines are
those that were read, blank ones without their blanks, and the others without blanks at their ends
and with one margin taken off and another inserted. Writing it again changes nothing. -/
theorem parse_composeCode {text : Text} {comment : BlockComment}
    (parsed : parse text = .ok comment) {header : TagLine} {body : List (Option Text)}
    {close : Text} (member : .paragraph (.code header body close) ∈ comment.items)
    {other : Text} {frame : BlockComment} (framed : parse other = .ok frame) (ctx : Context)
    (limit : byteLength (frame.start ++ composeParagraph ctx (.code header body close) ++
      frame.stop) ≤ inputLimit) :
    ∃ again margin inserted,
      parse (frame.start ++ composeParagraph ctx (.code header body close) ++ frame.stop) =
        .ok { frame with items := [.paragraph (.code header again close)] } ∧
      Forall₂ (Rebased margin inserted) body again ∧
      (∀ c ∈ margin, isIndent c) ∧ (∀ c ∈ inserted, isIndent c) ∧
      composeParagraph ctx (.code header again close) =
        composeParagraph ctx (.code header body close) := by
  have inside : .paragraph (.code header body close) ∈ comment.items.flatMap (tidyItem .keep) :=
    mem_flatMap.mpr ⟨_, member, mem_cons_self⟩
  have fits := (fits_of_parse parsed inside).resolve_right fun flows => by cases flows
  obtain ⟨first, lines, last, opens, ends, rfl, rfl, unbroken⟩ := fits.exists_code
  obtain ⟨inserted, indents, sound⟩ := exists_rebased opens ends unbroken
  have token : (rebasedLexeme header (lines.filterMap fencedLine?) inserted last).token =
      .code header ((flushBody (lines.filterMap fencedLine?)).map (rebased inserted))
        (last ++ ['\n']) := rfl
  have found := takeAll_of_element (element_code token)
  have written := textOf_rebasedLexeme header (lines.filterMap fencedLine?) inserted last
  rw [composeParagraph, ← written] at limit
  refine ⟨_, _, inserted, ?_, forall₂_rebased inserted _, indents_margin _, indents,
    composeCode_rebased header _ _ indents⟩
  rw [composeParagraph, ← written]
  exact parse_framed framed sound found limit

/-- Fenced code that is indented further than its fences, with a line of blanks and an empty one. -/
def indentedCode : Paragraph :=
  .code ⟨" *   ".toList, "\x7b.c\x7d".toList, []⟩
    [some "    int x;  ".toList, some "  ".toList, none, some "      y();".toList]
    " * @endcode\n".toList

theorem parse_indentedCode : parse
    ("/**\n *   @code \x7b.c\x7d\n *     int x;  \n *   \n *\n *       y();\n * @endcode\n" ++
      " */\n").toList =
        .ok ⟨"/**\n".toList, [.paragraph indentedCode], " */\n".toList⟩ := by
  have sound : Sound
      [⟨" *   @code \x7b.c\x7d".toList ::
          ([" *     int x;  ".toList, " *   ".toList, " *".toList, " *       y();".toList] ++
            [" * @endcode".toList]),
        .code ⟨" *   ".toList, "\x7b.c\x7d".toList, []⟩
          [some "    int x;  ".toList, some "  ".toList, none, some "      y();".toList]
          " * @endcode\n".toList⟩] := by
    constructor
    · exact forall_mem_singleton.mpr (.code rfl (by decide) rfl)
    · unfold Unbroken
      decide
  exact parse_of_sound sound rfl (by decide +kernel)

theorem parse_rebasedCode :
    ∃ again margin inserted,
      parse ("/**\n".toList ++
          (" *   @code\x7b.c\x7d\n *   \tint x;\n *\n *\n" ++
            " *   \t  y();\n * @endcode\n").toList ++ " */\n".toList) =
        .ok ⟨"/**\n".toList,
          [.paragraph (.code ⟨" *   ".toList, "\x7b.c\x7d".toList, []⟩ again
            " * @endcode\n".toList)], " */\n".toList⟩ ∧
      Forall₂ (Rebased margin inserted)
        [some "    int x;  ".toList, some "  ".toList, none, some "      y();".toList] again ∧
      (∀ c ∈ margin, isIndent c) ∧ (∀ c ∈ inserted, isIndent c) := by
  have written : composeParagraph { style := { width := 17 } } indentedCode =
      (" *   @code\x7b.c\x7d\n *   \tint x;\n *\n *\n" ++
        " *   \t  y();\n * @endcode\n").toList := by decide +kernel
  have found := parse_composeCode parse_indentedCode mem_cons_self parse_indentedCode
    { style := { width := 17 } }
  rw [← indentedCode, written] at found
  obtain ⟨again, margin, inserted, read, same, off, on, _⟩ := found (by decide +kernel)
  exact ⟨again, margin, inserted, read, same, off, on⟩

end Reflow.Document.Block
