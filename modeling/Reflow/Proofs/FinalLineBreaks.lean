import Reflow.Proofs.LineRereading
import Reflow.Proofs.ProseRuns
import Reflow.Proofs.ProseWords

/-!
# The last line break

Whether a formatted text ends with a line break. A break that was missing is supplied for reading
and taken off what is written, so the result ends with a line break again exactly if an empty line
is written last. Only prose writes empty lines, and only where its last paragraph is followed by
blank lines of which the first is empty (`looseEnd`).
-/

namespace Reflow

open Text Layout Document List

/-! ## Filled lines at the end -/

/-- The last line of a text is not empty, and it has its line break. -/
def EndsFilled (text : Text) : Prop :=
  ∃ front line, text = front ++ (line ++ ['\n']) ∧ line ≠ [] ∧ '\n' ∉ line

variable {line text : Text} {run : List Text} {item : Item} {style : Style}

theorem endsFilled_line (front : Text) (someChar : line ≠ []) (unbroken : '\n' ∉ line) :
    EndsFilled (front ++ (line ++ ['\n'])) :=
  ⟨front, line, rfl, someChar, unbroken⟩

theorem EndsFilled.append (filled : EndsFilled text) (front : Text) :
    EndsFilled (front ++ text) := by
  obtain ⟨before, line, rfl, someChar, unbroken⟩ := filled
  rw [← append_assoc]
  exact endsFilled_line _ someChar unbroken

theorem endsLine_of_unbroken (unbroken : '\n' ∉ text) : endsLine text = false := by
  rw [endsLine, beq_eq_false_iff_ne]
  exact fun last => unbroken (mem_of_getLast? last)

@[simp] theorem endsLine_concat (text : Text) : endsLine (text ++ ['\n']) := by
  simp [endsLine]

@[simp] theorem dropLineBreak_concat (text : Text) :
    dropLineBreak (text ++ ['\n']) = text := by
  simp [dropLineBreak]

theorem EndsFilled.endsLine (filled : EndsFilled text) : Reflow.endsLine text := by
  obtain ⟨front, line, rfl, -, -⟩ := filled
  rw [← append_assoc, endsLine_concat]

/-- Behind a filled line there is one line break to take off. -/
theorem EndsFilled.dropped (filled : EndsFilled text) :
    Reflow.endsLine (dropLineBreak text) = false := by
  obtain ⟨front, line, rfl, someChar, unbroken⟩ := filled
  rw [← append_assoc, dropLineBreak_concat]
  exact endsLine_append someChar unbroken

/-! ## Layouts -/

/-- Filled words make up lines that are not empty. -/
theorem filled_of_mem_fillWords (wrap : Wrap) (text : Text)
    (member : run ∈ wrap.fillWords (words text)) : joinWords run ≠ [] ∧ '\n' ∉ joinWords run := by
  have isWord := wrap.isWord_of_mem_lines text run member
  refine ⟨?_, unbroken_joinWords isWord⟩
  obtain ⟨word, rest, rfl⟩ := exists_cons_of_ne_nil (wrap.ne_nil_of_mem_fillWords _ run member)
  exact joinWords_ne_nil (isWord word mem_cons_self) rest

/-- A filled line and further ones behind a lead. -/
theorem endsFilled_leadLines (front lead : Text) {first : Text}
    (someChar : first ≠ []) (unbroken : '\n' ∉ first) {rest : List Text}
    (filled : ∀ line ∈ rest, line ≠ [] ∧ '\n' ∉ line) :
    EndsFilled (front ++ first ++ ['\n'] ++ leadLines lead rest) := by
  obtain rfl | ⟨before, last, rfl⟩ := eq_nil_or_concat' rest
  · rw [leadLines, flatMap_nil, append_nil, append_assoc]
    exact endsFilled_line front someChar unbroken
  · have here := filled last (by simp)
    have behind : leadLines lead (before ++ [last]) =
        leadLines lead before ++ lead ++ (last ++ ['\n']) := by
      simp [leadLines]
    rw [behind]
    exact (endsFilled_line _ here.1 here.2).append _

theorem endsFilled_fillWords (front lead : Text) {wrap : Wrap} {first : List Text}
    {rest : List (List Text)} (filled : wrap.fillWords (words text) = first :: rest) :
    EndsFilled (front ++ joinWords first ++ ['\n'] ++ leadLines lead (rest.map joinWords)) := by
  have lines : ∀ run ∈ first :: rest, joinWords run ≠ [] ∧ '\n' ∉ joinWords run := by
    rw [← filled]
    exact fun run => filled_of_mem_fillWords wrap text
  have here := lines first mem_cons_self
  refine endsFilled_leadLines front lead here.1 here.2 fun line member => ?_
  obtain ⟨run, listed, rfl⟩ := mem_map.1 member
  exact lines run (mem_cons_of_mem _ listed)

theorem endsFilled_contiguous (ctx : Context) (lead header : Text)
    (someWord : words text ≠ []) : EndsFilled (contiguous ctx lead header text) := by
  obtain ⟨wrap, deeper, -, -, written⟩ := contiguous_eq ctx lead header text
  rw [written]
  cases filled : wrap.fillWords (words text) with
  | nil => exact absurd filled (wrap.fillWords_ne_nil someWord)
  | cons first rest => exact endsFilled_fillWords _ _ filled

theorem endsFilled_breaking (ctx : Context) {head : Text} (unbroken : '\n' ∉ head)
    (solid : ∃ c ∈ head, isBlank c = false) (bodyLead text : Text) :
    EndsFilled (breaking ctx head bodyLead text) := by
  obtain ⟨wrap, -, written⟩ := breaking_eq ctx head bodyLead text
  obtain ⟨c, member, kept⟩ := solid
  have someChar : trimEnd head ≠ [] := by
    obtain ⟨front, back, rfl⟩ := append_of_mem member
    rw [trimEnd, dropEndWhile_kept kept]
    simp
  have clean : '\n' ∉ trimEnd head := by
    obtain ⟨back, whole, -⟩ := exists_dropEndWhile isBlank head
    rw [whole] at unbroken
    exact fun inside => unbroken (mem_append_left _ inside)
  rw [written, ← nil_append (trimEnd head)]
  refine endsFilled_leadLines [] bodyLead someChar clean fun line member => ?_
  obtain ⟨run, listed, rfl⟩ := mem_map.1 member
  exact filled_of_mem_fillWords wrap text listed

theorem endsFilled_bullet (ctx : Context) (lead : Text) {start : Text}
    (someChar : start ≠ []) (unbroken : '\n' ∉ start) (text : Text) :
    EndsFilled (bullet ctx lead start text) := by
  obtain ⟨wrap, -, written⟩ := bullet_eq ctx lead start text
  rw [written]
  cases filled : wrap.fillWords (words text) with
  | nil =>
    rw [hanging, append_assoc]
    exact endsFilled_line lead someChar unbroken
  | cons first rest => exact endsFilled_fillWords _ _ filled

/-! ## Elements of prose -/

namespace Document.Prose

/-- A line of text holds a character that is not blank. -/
theorem IsText.words_ne_nil {value : TagLine} (text : IsText line value) :
    words value.contents ≠ [] := by
  cases text with
  | @text indent rest c indents solid other =>
    intro noneThere
    obtain ⟨_, _, found⟩ := head?_words solid rest
    rw [noneThere] at found
    cases found

/-- A line with a class other than blank does not consist of indentation. -/
theorem Shape.exists_solid {kind : Line} (shape : Shape line kind) (other : kind ≠ .blank) :
    ∃ c ∈ line, isBlank c = false := by
  cases shape with
  | blank indents => exact absurd rfl other
  | @bullet indent text mark indents marks =>
    refine ⟨mark, by simp, ?_⟩
    rcases marks with rfl | rfl | rfl <;> rfl
  | @text indent rest c indents solid other => exact ⟨c, by simp, solid⟩

theorem Owns.endsFilled {group : List Text} {item : ListItem} (owns : Owns group item)
    (unbroken : Unbroken group) (ctx : Context) : EndsFilled (item.compose ctx) := by
  cases owns with
  | @group first more start texts bullet owned =>
    have clean := unbroken first mem_cons_self
    have solid := bullet.exists_solid (by simp)
    cases bullet with
    | @bullet indent text mark indents marks =>
      unfold ListItem.compose
      dsimp only
      split
      · exact endsFilled_breaking ctx clean solid _ _
      · refine endsFilled_bullet ctx _ (cons_ne_nil _ _) ?_ _
        rcases marks with rfl | rfl | rfl <;> decide

/-- Every element but a separator ends with a line that is not empty. -/
theorem MakesUp.endsFilled (made : MakesUp run item) (unbroken : Unbroken run)
    (other : ∀ line, item ≠ .separator line) (ctx : Context) :
    EndsFilled (composeItem ctx item) := by
  cases made with
  | @separator first more blank => exact absurd rfl (other _)
  | @listItems groups items someGroup owned =>
    obtain ⟨front, last, older, item, rfl, rfl, -, owns⟩ := owned.exists_last someGroup
    have written : composeItem ctx (.listItems (older ++ [item])) =
        older.flatMap (ListItem.compose ctx) ++ item.compose ctx := by
      simp [composeItem]
    rw [written]
    refine (owns.endsFilled (fun line member => unbroken line ?_) ctx).append _
    exact mem_flatten.2 ⟨last, by simp, member⟩
  | @text lines texts someLine textsOf =>
    refine endsFilled_contiguous ctx _ _ ?_
    rw [words_joinLines, allWords]
    cases textsOf with
    | nil => exact absurd rfl someLine
    | cons text _ =>
      rw [flatMap_cons]
      exact append_ne_nil_of_left_ne_nil text.words_ne_nil _

/-- The last line of a run that makes up no separator is not blank. -/
theorem MakesUp.exists_last (made : MakesUp run item) (other : ∀ line, item ≠ .separator line) :
    ∃ front line, run = front ++ [line] ∧ ∃ c ∈ line, isBlank c = false := by
  cases made with
  | @separator first more blank => exact absurd rfl (other _)
  | @listItems groups items someGroup grouped =>
    obtain ⟨front, last, _, _, rfl, rfl, -, owns⟩ := grouped.exists_last someGroup
    cases owns with
    | @group first more start texts bullet owned =>
      obtain rfl | ⟨above, line, rfl⟩ := eq_nil_or_concat' more
      · exact ⟨front.flatten, first, by simp, bullet.exists_solid (by simp)⟩
      · obtain ⟨_, value, _, -, text⟩ := owned.exists_of_concat
        exact ⟨front.flatten ++ first :: above, line, by simp, text.exists_solid (by simp)⟩
  | text someLine textsOf =>
    obtain ⟨above, line, _, _, rfl, rfl, -, text⟩ := textsOf.exists_last someLine
    exact ⟨above, line, rfl, text.exists_solid (by simp)⟩

end Document.Prose

/-! ## Blank lines at the end -/

/-- The characters of blank lines. -/
def isLayout (c : Char) : Bool := isIndent c || c == '\n'

/-- Whether something stands before the blank lines at the end of a text, and the first of them is
empty. -/
def looseEnd (text : Text) : Bool :=
  let blanks := text.rtakeWhile isLayout
  blanks != text && "\n\n".toList.isPrefixOf (blanks.dropWhile isIndent)

theorem isLayout_of_isIndent {c : Char} (indent : isIndent c) : isLayout c := by
  rw [isLayout, indent, Bool.true_or]

/-- Blank lines alone are no loose end. -/
theorem looseEnd_of_blank (blank : ∀ c ∈ text, isLayout c) : looseEnd text = false := by
  simp [looseEnd, rtakeWhile_eq_self_iff.2 blank]

/-- What is looked at stands behind the last character that does not belong to blank lines. -/
theorem looseEnd_of_solid (front : Text) {c : Char} (solid : isLayout c = false)
    {blanks : Text} (blank : ∀ d ∈ blanks, isLayout d) :
    looseEnd (front ++ c :: blanks) = "\n\n".toList.isPrefixOf (blanks.dropWhile isIndent) := by
  have taken : (front ++ c :: blanks).rtakeWhile isLayout = blanks := by
    have stops : ∀ d ∈ (c :: front.reverse).head?, isLayout d = false := by
      rintro d ⟨⟩
      exact solid
    have reversed := (takeWhile_stop (fun d inside => blank d (mem_reverse.1 inside)) stops).1
    rw [List.rtakeWhile, reverse_append, reverse_cons, append_assoc,
      singleton_append, reversed, reverse_reverse]
  have someFront : blanks ≠ front ++ c :: blanks := by
    intro same
    have sizes := congrArg List.length same
    simp at sizes
    omega
  simp only [looseEnd, taken, bne_iff_ne.2 someFront, Bool.true_and]

theorem isPrefixOf_breaks (blanks : Text) :
    "\n\n".toList.isPrefixOf ('\n' :: blanks) = (blanks.head? == some '\n') := by
  cases blanks with
  | nil => rfl
  | cons c blanks => simp [List.isPrefixOf, eq_comm]

/-- The last character of a line that does not indent, and the indentation behind it. -/
theorem exists_last_solid (solid : ∃ c ∈ line, isIndent c = false) (unbroken : '\n' ∉ line) :
    ∃ front c indents, line = front ++ c :: indents ∧
      isLayout c = false ∧ ∀ d ∈ indents, isIndent d := by
  induction line with
  | nil => simp at solid
  | cons d rest ih =>
    by_cases later : ∃ c ∈ rest, isIndent c = false
    · obtain ⟨front, c, indents, rfl, last⟩ :=
        ih later fun inside => unbroken (mem_cons_of_mem _ inside)
      exact ⟨d :: front, c, indents, rfl, last⟩
    · have here : isIndent d = false := by
        obtain ⟨c, member, found⟩ := solid
        rcases mem_cons.1 member with rfl | inside
        · exact found
        · exact absurd ⟨c, inside, found⟩ later
      have other : d ≠ '\n' := fun same => unbroken (same ▸ mem_cons_self)
      refine ⟨[], d, rest, rfl, by simp [isLayout, here, other], fun c inside => ?_⟩
      by_contra found
      exact later ⟨c, inside, Bool.not_eq_true _ ▸ found⟩

namespace Document.Prose

theorem Shape.indents_of_blank (blank : Shape line .blank) : Indents line := by
  cases blank with
  | blank indents => exact indents

/-- Blank lines hold indentation and line breaks. -/
theorem isLayout_of_blank {lines : List Text} (blank : ∀ line ∈ lines, Shape line .blank) :
    ∀ c ∈ unlines lines, isLayout c := by
  intro c member
  obtain ⟨line, listed, inside⟩ := mem_flatMap.1 member
  rcases mem_append.1 inside with here | last
  · exact isLayout_of_isIndent ((blank line listed).indents_of_blank c here)
  · rw [mem_singleton.1 last]
    rfl

/-- A run that makes up no separator is the end of a text up to the indentation behind its last
character. -/
theorem MakesUp.exists_text (made : MakesUp run item) (other : ∀ line, item ≠ .separator line)
    (unbroken : Unbroken run) :
    ∃ front c indents, unlines run = front ++ c :: (indents ++ ['\n']) ∧ isLayout c = false ∧
      ∀ d ∈ indents, isIndent d := by
  obtain ⟨above, line, rfl, c, member, found⟩ := made.exists_last other
  have solid : isIndent c = false := by
    rw [← Bool.not_eq_true]
    intro indent
    rw [isBlank_of_isIndent indent] at found
    cases found
  obtain ⟨front, c, indents, rfl, last⟩ :=
    exists_last_solid ⟨c, member, solid⟩ (unbroken line (by simp))
  exact ⟨unlines above ++ front, c, indents, by simp [unlines], last⟩

/-- A text has no loose end if its last element is no separator. -/
theorem looseEnd_of_last {above : Text} (whole : text ++ ['\n'] = above ++ unlines run)
    (made : MakesUp run item) (other : ∀ line, item ≠ .separator line) (unbroken : Unbroken run) :
    looseEnd text = false := by
  obtain ⟨front, c, indents, last, solid, all⟩ := made.exists_text other unbroken
  have same : text = (above ++ front) ++ c :: indents := by
    refine append_cancel_right (whole.trans ?_)
    rw [last]
    simp
  have nothing : indents.dropWhile isIndent = [] := dropWhile_eq_nil_iff.2 all
  rw [same, looseEnd_of_solid _ solid fun d inside => isLayout_of_isIndent (all d inside), nothing]
  rfl

/-- Behind another element, blank lines are a loose end exactly if the first one is empty. -/
theorem looseEnd_of_separator {above first : Text} {more : List Text} (ends : endsLine text = false)
    (whole : text ++ ['\n'] = above ++ unlines run ++ unlines (first :: more))
    (made : MakesUp run item) (other : ∀ line, item ≠ .separator line) (unbroken : Unbroken run)
    (blank : ∀ line ∈ first :: more, Shape line .blank) : looseEnd text = first.isEmpty := by
  obtain ⟨front, c, indents, last, solid, all⟩ := made.exists_text other unbroken
  -- The last line break of the blank lines is the one that was supplied.
  obtain ⟨tail, blanks⟩ : ∃ tail, unlines (first :: more) = tail ++ ['\n'] := by
    obtain ⟨upper, line, same⟩ : ∃ upper line, first :: more = upper ++ [line] :=
      ⟨_, _, (dropLast_concat_getLast (cons_ne_nil _ _)).symm⟩
    exact ⟨unlines upper ++ line, by simp [same, unlines]⟩
  have same : text = (above ++ front) ++ c :: (indents ++ '\n' :: tail) := by
    refine append_cancel_right (whole.trans ?_)
    rw [last, blanks]
    simp
  have layout : ∀ d ∈ tail, isLayout d := fun d inside =>
    isLayout_of_blank blank d (blanks ▸ mem_append_left _ inside)
  have behind : (indents ++ '\n' :: tail).dropWhile isIndent = '\n' :: tail :=
    (takeWhile_stop all (by simp [isIndent])).2
  rw [same, looseEnd_of_solid _ solid, behind, isPrefixOf_breaks]
  · cases tail with
    | nil =>
      rw [same, append_cons _ c, ← append_assoc, endsLine_concat] at ends
      cases ends
    | cons d tail =>
      rw [unlines_cons] at blanks
      cases first with
      | nil =>
        rw [nil_append, cons_append, List.cons.injEq] at blanks
        rw [← blanks.1]
        rfl
      | cons e first =>
        rw [cons_append, cons_append, List.cons.injEq] at blanks
        have indent := (blank _ mem_cons_self).indents_of_blank e mem_cons_self
        rw [blanks.1] at indent
        have different : d ≠ '\n' := by
          rintro rfl
          cases indent
        simpa using different
  · intro d inside
    simp only [mem_append, mem_cons] at inside
    rcases inside with inside | rfl | inside
    · exact isLayout_of_isIndent (all d inside)
    · rfl
    · exact layout d inside

/-- If a text has no last line break, what is written for it ends with a line break behind the one
that is taken off exactly if it has a loose end. -/
theorem endsLine_dropLineBreak (ends : endsLine text = false) {items : List Item}
    (parsed : parse (text ++ ['\n']) = .ok items) :
    endsLine (dropLineBreak (compose style items)) = looseEnd text := by
  obtain ⟨_, lines, unbroken, whole, taken⟩ := parse_eq_ok_iff.1 parsed
  obtain ⟨runs, rfl, made, apart⟩ := machine_eq_some_iff.1 (takeAll_eq_iff_machine.1 taken)
  have clean : ∀ run ∈ runs, Unbroken run := fun run listed line member =>
    unbroken line (mem_flatten.2 ⟨run, listed, member⟩)
  obtain rfl | ⟨before, run, rfl⟩ := eq_nil_or_concat' runs
  · simp at whole
  obtain ⟨older, item, rfl, olderMade, last⟩ := made.exists_of_concat
  have cleanLast := clean run (by simp)
  rw [flatten_concat, unlines_append] at whole
  rw [compose, flatMap_append, flatMap_singleton]
  have filled := last.endsFilled cleanLast
  have loose := fun other => looseEnd_of_last whole last other cleanLast
  cases last with
  | listItems | text =>
    rw [loose (by simp)]
    exact ((filled (by simp) _).append _).dropped
  | @separator first more blank =>
    have cleanFirst : '\n' ∉ first := cleanLast first mem_cons_self
    rw [composeItem, ← append_assoc, dropLineBreak_concat]
    obtain rfl | ⟨earlier, previous, rfl⟩ := eq_nil_or_concat' before
    · -- Blank lines are all there is, and only their first one is written.
      cases olderMade
      rw [flatten_nil, unlines_nil, nil_append] at whole
      have layout : ∀ c ∈ text, isLayout c := fun c inside =>
        isLayout_of_blank blank c (whole ▸ mem_append_left _ inside)
      rw [looseEnd_of_blank layout, flatMap_nil, nil_append]
      exact endsLine_of_unbroken cleanFirst
    · obtain ⟨oldest, neighbour, rfl, -, neighbourMade⟩ := olderMade.exists_of_concat
      have cleanPrevious := clean previous (by simp)
      have differs : ∀ line, neighbour ≠ .separator line := by
        rintro line rfl
        rw [append_assoc, singleton_append] at apart
        exact (apart.right_of_append).rel
      rw [flatten_concat, unlines_append] at whole
      rw [looseEnd_of_separator ends whole neighbourMade differs cleanPrevious blank]
      cases first with
      | nil =>
        rw [append_nil, flatMap_append, flatMap_singleton]
        exact ((neighbourMade.endsFilled cleanPrevious differs _).append _).endsLine
      | cons c first => exact endsLine_append (cons_ne_nil _ _) cleanFirst

/-- Prose that ends with a line break is written so. -/
theorem endsLine_compose (ends : endsLine text) {items : List Item}
    (parsed : parse text = .ok items) : endsLine (compose style items) := by
  obtain ⟨_, lines, unbroken, whole, taken⟩ := parse_eq_ok_iff.1 parsed
  obtain ⟨runs, rfl, made, -⟩ := machine_eq_some_iff.1 (takeAll_eq_iff_machine.1 taken)
  obtain rfl | ⟨before, run, rfl⟩ := eq_nil_or_concat' runs
  · rw [whole] at ends
    cases ends
  obtain ⟨older, item, rfl, -, last⟩ := made.exists_of_concat
  have clean : Unbroken run := fun line member => unbroken line (by simp [member])
  rw [compose, flatMap_append, flatMap_singleton]
  have filled := last.endsFilled clean
  cases last with
  | separator => rw [composeItem, ← append_assoc, endsLine_concat]
  | listItems | text => exact ((filled (by simp) _).append _).endsLine

end Document.Prose

/-! ## Formatting -/

theorem Document.Block.ne_nil_of_isClosing (closes : Block.isClosing line) : line ≠ [] := by
  rintro rfl
  have last := Block.lastSolid_of_isClosing closes
  cases last

/-- A block comment ends with the text of its last line. -/
theorem Document.Block.endsFilled_compose (style : Style) (ends : endsLine text)
    {comment : BlockComment} (parsed : Block.parse text = .ok comment) (items : List BlockItem) :
    EndsFilled (Block.compose style { comment with items }) := by
  obtain ⟨_, opening, lexemes, closing, ending, found, rfl⟩ := Block.parse_eq_ok_iff.1 parsed
  have someChar := Block.ne_nil_of_isClosing found.closes
  rcases found.ends with rfl | rfl
  · -- Without its line break the closing line would leave the text without one.
    have whole := found.whole
    rw [append_nil, append_cons, ← append_assoc] at whole
    rw [whole, endsLine_append someChar found.cleanClosing] at ends
    cases ends
  · exact (endsFilled_line [] someChar found.cleanClosing).append _

theorem endsLine_formatLines {kind : TextKind} (other : kind ≠ .prose) {out : Text}
    (ends : endsLine text) (written : formatLines style text kind = .ok out) :
    endsLine out ∧ endsLine (dropLineBreak out) = false := by
  cases kind with
  | prose => exact absurd rfl other
  | lineComment =>
    have someChar : text ≠ [] := by
      rintro rfl
      cases ends
    obtain ⟨front, rfl, last, -⟩ := LineComment.formatLines_again someChar written
    rw [endsLine_concat, dropLineBreak_concat]
    exact ⟨rfl, last⟩
  | blockComment =>
    obtain ⟨comment, parsed, rfl⟩ := Prose.exists_of_written written
    have filled := Block.endsFilled_compose style ends parsed
      (Block.normalize style.unnamed comment.items)
    exact ⟨filled.endsLine, filled.dropped⟩

/-- A formatted text ends with a line break exactly if the text does or if it is prose with a loose
end. -/
theorem endsLine_format {style : Style} {kind : TextKind} {text out : Text}
    (formatted : format style kind text = .ok out) :
    endsLine out ↔ endsLine text ∨ kind = .prose ∧ looseEnd text := by
  cases ends : endsLine text with
  | true =>
    rw [format, if_pos ends] at formatted
    refine iff_of_true ?_ (.inl rfl)
    by_cases other : kind = .prose
    · subst other
      obtain ⟨items, parsed, rfl⟩ := Prose.exists_of_formatLines formatted
      exact Prose.endsLine_compose ends parsed
    · exact (endsLine_formatLines other ends formatted).1
  | false =>
    obtain ⟨whole, written, rfl⟩ := (format_of_open ends).1 formatted
    by_cases other : kind = .prose
    · subst other
      obtain ⟨items, parsed, rfl⟩ := Prose.exists_of_formatLines written
      simp [Prose.endsLine_dropLineBreak ends parsed]
    · rw [(endsLine_formatLines other (endsLine_concat text) written).2]
      simp [other]

/-- A word above an empty line and a line with a space, which has no line break. -/
def looseWord : Text := "a\n\n ".toList

theorem format_looseWord : format {} .prose looseWord = .ok "a\n".toList := by
  let lines : List Text := [['a'], [], [' ']]
  have parsed : Prose.parse (looseWord ++ ['\n']) = .ok (takeAll Prose.element lines).1 := by
    refine Prose.parse_eq_ok_iff.2 ⟨by decide +kernel, lines, ?_, rfl, by decide +kernel⟩
    unfold Unbroken
    decide
  rw [format, if_neg (by decide), formatLines, parsed]
  exact congrArg Except.ok (by decide +kernel)

theorem looseWord_endsLine :
    format {} .prose looseWord = .ok "a\n".toList ∧
      (endsLine "a\n".toList ↔
        endsLine looseWord ∨ TextKind.prose = .prose ∧ looseEnd looseWord) :=
  ⟨format_looseWord, endsLine_format format_looseWord⟩

/-- A formatted text can end with a line break though the text does not. -/
theorem looseWord_gains_break :
    ¬∀ (style : Style) (kind : TextKind) (text out : Text),
      format style kind text = .ok out → (endsLine out ↔ endsLine text) := by
  intro always
  have same := always _ _ _ _ format_looseWord
  revert same
  decide

end Reflow
