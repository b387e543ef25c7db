import Reflow.Document.Format
import Reflow.Proofs.Layout.Lines
import Reflow.Proofs.ProseReading

/-!
# Formatting keeps the words of prose

Every layout writes the words of the header and of the text in their order, and every element of prose
is written with the words of the lines it was taken from. So formatted prose has the words that the
prose had (`words_format_prose`).
-/

namespace Reflow.Document.Prose

open Text Layout Reflow.Expr List
open Block (ItemPart itemOfParts_start)

/-! ## Words of lines -/

/-- A text has some words, whatever stands behind it. -/
def Tells (text : Text) (told : List Text) : Prop :=
  ∀ rest, words (text ++ rest) = told ++ words rest

theorem Tells.words_eq {text : Text} {told : List Text} (tells : Tells text told) :
    words text = told := by
  have alone := tells []
  rw [append_nil] at alone
  exact alone.trans (append_nil _)

theorem Tells.nil : Tells [] [] := fun _ => rfl

theorem Tells.append {first second : Text} {told more : List Text}
    (tells : Tells first told) (tellsLater : Tells second more) :
    Tells (first ++ second) (told ++ more) := by
  intro rest
  rw [append_assoc, tells, tellsLater, append_assoc]

theorem Tells.flatMap {α : Type} {items : List α} {write : α → Text}
    {told : α → List Text} (each : ∀ item ∈ items, Tells (write item) (told item)) :
    Tells (items.flatMap write) (items.flatMap told) := by
  induction items with
  | nil => exact .nil
  | cons item items ih =>
    rw [flatMap_cons, flatMap_cons]
    refine (each item mem_cons_self).append (ih fun other member => ?_)
    exact each other (mem_cons_of_mem _ member)

theorem tells_line (line : Text) : Tells (line ++ ['\n']) (words line) := by
  intro rest
  rw [append_assoc]
  exact words_append_blank rfl line rest

theorem tells_unlines (given : List Text) : Tells (unlines given) (given.flatMap words) :=
  Tells.flatMap fun line _ => tells_line line

variable {front : Text} {γ : Type}

theorem tells_blank (blank : ∀ c ∈ front, isBlank c) : Tells front [] := by
  intro rest
  induction front with
  | nil => rfl
  | cons c front ih =>
    have skipped : words (c :: (front ++ rest)) = words (front ++ rest) :=
      words_append_blank (blank c mem_cons_self) [] (front ++ rest)
    rw [cons_append, skipped, ih (forall_mem_cons.mp blank).2]

theorem tells_indents (indents : Indents front) : Tells front [] :=
  tells_blank fun c member => isBlank_of_isIndent (indents c member)

theorem words_trimEnd (text : Text) : words (trimEnd text) = words text := by
  obtain ⟨back, whole, blank⟩ := exists_dropEndWhile isBlank text
  have kept : words (dropEndWhile isBlank text ++ back) = words (dropEndWhile isBlank text) := by
    cases back with
    | nil => rw [append_nil]
    | cons c back =>
      have nothing := (tells_blank (forall_mem_cons.mp blank).2).words_eq
      rw [words_append_blank (blank c mem_cons_self), nothing, append_nil]
  rw [← whole] at kept
  exact kept.symm

/-! ## Layouts -/

section Layouts

variable {lead : Text} (indents : Indents lead)

include indents

theorem words_behind_lead (text : Text) : words (lead ++ text) = words text :=
  tells_indents indents text

theorem tells_leadLines {filled : List (List Text)}
    (isWord : ∀ given ∈ filled, ∀ word ∈ given, IsWord word) :
    Tells (leadLines lead (filled.map joinWords)) filled.flatten := by
  have each : ∀ given ∈ filled, Tells (lead ++ joinWords given ++ ['\n']) given := by
    intro given member
    have line := tells_line (lead ++ joinWords given)
    rw [words_behind_lead indents, words_joinWords (isWord given member)] at line
    exact line
  have all := Tells.flatMap each
  rw [flatMap_id'] at all
  rw [leadLines, flatMap_map]
  exact all

theorem tells_hanging {header deeper alone : Text} {told : List Text}
    (behind : ∀ text, words (lead ++ header ++ text) = told ++ words text)
    (moreIndents : Indents deeper) (tells : words alone = told)
    {filled : List (List Text)} (isWord : ∀ given ∈ filled, ∀ word ∈ given, IsWord word) :
    Tells (hanging lead header deeper alone filled) (told ++ filled.flatten) := by
  cases filled with
  | nil =>
    rw [flatten_nil, append_nil, ← tells]
    exact tells_line alone
  | cons first rest =>
    obtain ⟨here, later⟩ := forall_mem_cons.mp isWord
    have line := tells_line (lead ++ header ++ joinWords first)
    rw [behind, words_joinWords here] at line
    rw [flatten_cons, ← append_assoc]
    exact line.append (tells_leadLines (indents.append moreIndents) later)

theorem tells_contiguous (ctx : Context) (text : Text) :
    Tells (contiguous ctx lead [] text) (words text) := by
  obtain ⟨wrap, deeper, _, moreIndents, layout⟩ := contiguous_eq ctx lead [] text
  rw [append_nil] at layout
  have alone : words (trimEnd lead) = [] := by
    rw [words_trimEnd, (tells_indents indents).words_eq]
  have behind : ∀ text, words (lead ++ [] ++ text) = [] ++ words text := fun text => by
    rw [append_nil, words_behind_lead indents, nil_append]
  have lines := tells_hanging indents behind moreIndents alone (wrap.isWord_of_mem_lines text)
  rwa [nil_append, wrap.flatten_fillWords, ← layout] at lines

theorem tells_bullet (ctx : Context) (mark : Char) (text : Text) :
    Tells (bullet ctx lead [mark, ' '] text) (words [mark] ++ words text) := by
  obtain ⟨wrap, _, layout⟩ := bullet_eq ctx lead [mark, ' '] text
  have behind : ∀ text, words (lead ++ [mark, ' '] ++ text) = words [mark] ++ words text := by
    intro text
    rw [append_assoc, words_behind_lead indents]
    exact words_append_blank rfl [mark] text
  have alone : words (lead ++ [mark, ' ']) = words [mark] := by
    have nothing := behind []
    rw [append_nil] at nothing
    exact nothing.trans (append_nil _)
  have lines := tells_hanging indents behind indents_tab alone (wrap.isWord_of_mem_lines text)
  rwa [wrap.flatten_fillWords, ← layout] at lines

theorem tells_breaking (ctx : Context) (head text : Text) :
    Tells (breaking ctx head lead text) (words head ++ words text) := by
  obtain ⟨wrap, _, layout⟩ := breaking_eq ctx head lead text
  have line := tells_line (trimEnd head)
  have later := tells_leadLines indents (wrap.isWord_of_mem_lines text)
  rw [words_trimEnd] at line
  rw [wrap.flatten_fillWords] at later
  rw [layout]
  exact line.append later

end Layouts

/-! ## Elements -/

theorem words_dropIndent (line : Text) : words (line.dropWhile isIndent) = words line :=
  words_dropWhile (fun _ => isBlank_of_isIndent) line

/-- Lines of text and their values: the words are the same, and every lead is indentation. -/
def TextOf {γ : Type} (make : TagLine → γ) (taken : List Text) (values : List γ) : Prop :=
  ∃ lines : List TagLine, values = (lines.flatMap fun line => [make line]) ∧
    taken.flatMap words = allWords lines ∧ ∀ line ∈ lines, Indents line.lead

theorem adds_textOf (make : TagLine → γ) :
    Taking.Adds (TextOf make) where
  nil := ⟨[], rfl, rfl, nofun⟩
  append := by
    rintro taken more _ _ ⟨lines, rfl, same, indents⟩ ⟨others, rfl, sameLater, indentsLater⟩
    refine ⟨lines ++ others, flatMap_append.symm, ?_, fun line member => ?_⟩
    · rw [flatMap_append, same, sameLater, allWords, allWords, allWords, flatMap_append]
    · rcases mem_append.mp member with early | late
      · exact indents line early
      · exact indentsLater line late

theorem gives_textLine (make : TagLine → γ) : (takeOne (textValue? make)).Gives (TextOf make) := by
  refine Taking.gives_takeOne fun {line values} found => ?_
  unfold textValue? at found
  split at found
  · next value isText =>
    cases found
    have shape : value = { lead := line.takeWhile isIndent, contents := line.dropWhile isIndent } :=
      Line.of_line? isText
    subst shape
    refine ⟨[_], rfl, ?_, fun other member => ?_⟩
    · rw [flatMap_singleton, allWords, flatMap_singleton]
      exact (words_dropIndent line).symm
    · cases mem_singleton.mp member
      exact indents_takeWhile line
  · cases found

/-- Elements are written with the words of the lines they were taken from. -/
def Written {γ : Type} (write : Context → γ → Text) (taken : List Text) (values : List γ) : Prop :=
  ∀ ctx, Tells (values.flatMap (write ctx)) (taken.flatMap words)

theorem adds_written (write : Context → γ → Text) :
    Taking.Adds (Written write) where
  nil := fun _ => .nil
  append := by
    intro taken more values others written writtenLater ctx
    rw [flatMap_append, flatMap_append]
    exact (written ctx).append (writtenLater ctx)

theorem written_singleton {write : Context → γ → Text} {taken : List Text} {value : γ}
    (one : ∀ ctx, Tells (write ctx value) (taken.flatMap words)) : Written write taken [value] := by
  intro ctx
  rw [flatMap_singleton]
  exact one ctx

theorem gives_textItem : textItem.Gives (Written composeItem) := by
  have prose := (gives_textLine id).takeSome (adds_textOf id) (shortens_takeOne _)
  refine Taking.Gives.takeText (prose.mono ?_)
  rintro taken _ ⟨lines, rfl, same, indents⟩
  rw [← map_eq_flatMap, map_id]
  refine written_singleton fun ctx => ?_
  have lead : Indents (leadOf lines) := by
    cases lines with
    | nil => exact nofun
    | cons first rest => exact indents first mem_cons_self
  have written := tells_contiguous lead ctx (joinLines lines)
  rw [words_joinLines, ← same] at written
  exact written

theorem gives_separatorItem : separatorItem.Gives (Written composeItem) := by
  have one : (takeOne blankText?).Gives fun taken _ =>
      ∀ line ∈ taken, ∀ c ∈ line, isIndent c = true := by
    refine Taking.gives_takeOne fun {line values} found => ?_
    unfold blankText? at found
    split at found
    · next blank =>
      intro other member
      cases mem_singleton.mp member
      have empty : line.dropWhile isIndent = [] := Line.of_line? blank
      refine all_eq_true.mp ?_
      rw [all_eq_isEmpty_dropWhile, empty]
      rfl
    · cases found
  have adds : Taking.Adds fun (taken : List Text) (_ : Text) =>
      ∀ line ∈ taken, ∀ c ∈ line, isIndent c = true :=
    ⟨nofun, fun first second line member => (mem_append.mp member).elim (first line)
      (second line)⟩
  have lines := (one.takeSome adds (shortens_takeOne _)).and (shortens_takeOne _).takeSome
  refine Taking.Gives.takeText (lines.mono ?_)
  rintro taken _ ⟨indents, someLine⟩
  obtain ⟨first, rest, rfl⟩ := exists_cons_of_ne_nil someLine
  have noWords : ∀ line ∈ first :: rest, words line = [] := fun line member =>
    (tells_indents (indents line member)).words_eq
  have unbroken : '\n' ∉ first := fun member => nomatch indents first mem_cons_self _ member
  refine written_singleton fun ctx => ?_
  have written := tells_line first
  rw [noWords first mem_cons_self] at written
  rw [firstLine_source rest unbroken, flatMap_eq_nil_iff.mpr noWords]
  exact written

/-- The line of an item and the texts behind it. -/
theorem tells_item {line : Text} {start : ListItem} (found : line? line = some (.bullet start))
    (breaks : Bool) (more : List Text) (ctx : Context) :
    Tells (ListItem.compose ctx { start with breaking := breaks, contents := start.contents ++ more })
      (words line ++ more.flatMap words) := by
  obtain ⟨mark, text, body, rfl⟩ := Line.of_line? found
  have indents := indents_takeWhile line
  unfold ListItem.compose
  dsimp only
  split
  · have written := tells_breaking (indents.append indents_tab) ctx line (joinContents more)
    rw [words_joinContents] at written
    exact written
  · have written := tells_bullet indents ctx mark (joinContents (text :: more))
    have split : words line = words [mark] ++ words text := by
      rw [← words_dropIndent, body]
      exact words_append_blank rfl [mark] text
    rw [words_joinContents, flatMap_cons, ← append_assoc, ← split] at written
    exact written

theorem gives_bulletItem (breaking : Bool) (test : ListItem → Bool) :
    (bulletItem breaking test).Gives (Written ListItem.compose) := by
  have start : (takeOne (startValue? test)).Gives fun taken values =>
      ∃ line item, taken = [line] ∧ line? line = some (.bullet item) ∧
        values = [.start { item with breaking := false }] := by
    refine Taking.gives_takeOne fun {line values} found => ?_
    unfold startValue? at found
    split at found
    · next item bulletKind =>
      split at found
      · cases found
        exact ⟨line, item, rfl, bulletKind, rfl⟩
      · cases found
    · cases found
  have prose := (gives_textLine fun line => ItemPart.line line.contents).takeMany (adds_textOf _)
    (shortens_takeOne _)
  refine Taking.Gives.takeText ((Taking.gives_both start prose).mono ?_)
  rintro _ _ ⟨_, back, _, _, rfl, rfl, ⟨line, item, rfl, found, rfl⟩, lines, rfl, same, _⟩
  refine written_singleton fun ctx => ?_
  have written := tells_item found breaking (lines.map (·.contents)) ctx
  rw [flatMap_map, ← allWords, ← same] at written
  rw [singleton_append, itemOfParts_start]
  exact written

theorem gives_listItem : listItem.Gives (Written composeItem) := by
  have items : anyBulletItem.Gives (Written ListItem.compose) :=
    (gives_bulletItem _ _).or ((gives_bulletItem _ _).or Taking.gives_nothing)
  refine Taking.Gives.takeText ((items.takeSome (adds_written _) shortens_anyBulletItem).mono ?_)
  intro taken values written
  exact written_singleton written

theorem gives_element : element.Gives (Written composeItem) :=
  gives_separatorItem.or (gives_listItem.or (gives_textItem.or Taking.gives_nothing))

/-! ## Formatting -/

/-- What is written for a text is written from what was read. -/
theorem exists_of_written {α : Type} {read : Except FormatError α} {write : α → Text}
    {out : Text} (written : (do return write (← read)) = Except.ok out) :
    ∃ value, read = .ok value ∧ write value = out := by
  cases read with
  | error fault => cases written
  | ok value =>
    cases written
    exact ⟨value, rfl, rfl⟩

theorem exists_of_formatLines {style : Style} {text out : Text}
    (written : formatLines style text .prose = .ok out) :
    ∃ items, parse text = .ok items ∧ compose style items = out := exists_of_written written

theorem words_formatLines {style : Style} {text formatted : Text}
    (done : formatLines style text .prose = .ok formatted) : words formatted = words text := by
  obtain ⟨items, parsed, rfl⟩ := exists_of_formatLines done
  obtain ⟨_, lines, _, rfl, taken⟩ := parse_eq_ok_iff.mp parsed
  have runs := shortens_element.runs_takeAll lines
  rw [taken] at runs
  obtain ⟨all, whole, written⟩ := gives_element.runs (adds_written composeItem) runs
  rw [append_nil] at whole
  subst whole
  rw [(tells_unlines lines).words_eq]
  exact (written _).words_eq

theorem words_dropLineBreak (text : Text) : words (dropLineBreak text) = words text := by
  unfold dropLineBreak
  split
  · next ends =>
    rw [endsLine, beq_iff_eq] at ends
    obtain ⟨front, rfl⟩ := List.getLast?_eq_some_iff.mp ends
    rw [dropLast_concat, (tells_line front).words_eq]
  · rfl

/-- Formatting prose leaves the sequence of its words as it is. -/
theorem words_format_prose {style : Style} {text formatted : Text}
    (done : format style .prose text = .ok formatted) : words formatted = words text := by
  rw [format] at done
  split at done
  · exact words_formatLines done
  · cases inner : formatLines style (text ++ ['\n']) .prose with
    | error fault =>
      rw [inner] at done
      cases done
    | ok lines =>
      rw [inner] at done
      cases done
      rw [words_dropLineBreak, words_formatLines inner, (tells_line text).words_eq]

/-- A paragraph over two bullet items, the first of them below its head. -/
def twoItems : Text :=
  "  one two\nthree\n\n- four <br>\n  five\n+ six\n  seven eight".toList

theorem words_twoItems :
    format { width := 9 } .prose twoItems =
        .ok "  one two\n  three\n\n- four <br>\n\tfive\n+ six\n\tseven\n\teight".toList ∧
      words "  one two\n  three\n\n- four <br>\n\tfive\n+ six\n\tseven\n\teight".toList =
        words twoItems := by
  let lines : List Text :=
    ["  one two".toList, "three".toList, [], "- four <br>".toList, "  five".toList, "+ six".toList,
      "  seven eight".toList]
  have parsed : parse (twoItems ++ ['\n']) = .ok (takeAll element lines).1 := by
    refine parse_eq_ok_iff.mpr ⟨by decide +kernel, lines, ?_, rfl, by decide +kernel⟩
    unfold Unbroken
    decide
  have done : format { width := 9 } .prose twoItems =
      .ok "  one two\n  three\n\n- four <br>\n\tfive\n+ six\n\tseven\n\teight".toList := by
    rw [format, if_neg (by decide), formatLines, parsed]
    exact congrArg Except.ok (by decide +kernel)
  exact ⟨done, words_format_prose done⟩

end Reflow.Document.Prose
