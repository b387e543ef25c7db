import Mathlib.Data.List.Chain
import Mathlib.Data.List.ModifyLast
import Reflow.Proofs.Lists
import Reflow.Proofs.ProseReading

/-!
# Prose line by line

What a line of prose looks like, and what a run of such lines makes up, said without reading
anything. A machine that goes over the lines once, either lengthening its newest element or
beginning another (`advance`), finds the longest runs, and reading prose gives what it finds
(`parse_eq_ok_iff_machine`).
-/

namespace Reflow.Document.Prose

open Text Layout Reflow.Expr List
open Option (map_none map_some some_or none_or)
open Block (ItemPart itemOfParts itemOfParts_start)

/-! ## Shapes -/

/-- What a line is: tabs and spaces alone, a bullet and a space behind them, or a text that begins
with neither white space nor a bullet. -/
inductive Shape : Text → Line → Prop where
  | blank {line : Text} (indents : Indents line) : Shape line .blank
  | bullet {indent text : Text} {mark : Char} (indents : Indents indent)
      (marks : mark = '+' ∨ mark = '-' ∨ mark = '*') :
      Shape (indent ++ mark :: ' ' :: text)
        (.bullet
          { breaking := "<br>".toList.isSuffixOf (indent ++ mark :: ' ' :: text)
            head := indent ++ mark :: ' ' :: text
            indent
            start := [mark, ' ']
            contents := [text] })
  | text {indent rest : Text} {c : Char} (indents : ∀ d ∈ indent, isIndent d)
      (solid : isBlank c = false)
      (other : c = '+' ∨ c = '-' ∨ c = '*' → rest.head? ≠ some ' ') :
      Shape (indent ++ c :: rest) (.text { lead := indent, contents := c :: rest })

abbrev IsText (line : Text) (value : TagLine) : Prop := Shape line (.text value)

/-- A bullet line and the lines of text that its item owns. -/
inductive Owns : List Text → ListItem → Prop where
  | group {first : Text} {more : List Text} {item : ListItem} {texts : List TagLine}
      (bullet : Shape first (.bullet item)) (owned : Forall₂ IsText more texts) :
      Owns (first :: more) { item with contents := item.contents ++ texts.map (·.contents) }

/-- The element that a run of lines makes up. -/
inductive MakesUp : List Text → Item → Prop where
  | separator {first : Text} {more : List Text}
      (blank : ∀ line ∈ first :: more, Shape line .blank) :
      MakesUp (first :: more) (.separator (first ++ ['\n']))
  | listItems {groups : List (List Text)} {items : List ListItem} (someGroup : groups ≠ [])
      (owned : Forall₂ Owns groups items) : MakesUp groups.flatten (.listItems items)
  | text {lines : List Text} {texts : List TagLine} (someLine : lines ≠ [])
      (textsOf : Forall₂ IsText lines texts) : MakesUp lines (.text texts)

/-- Whether the run of an element cannot go on into that of the next one: blank lines are followed
by no blank line, bullet items by no line but a blank one, and lines of text by none of them. -/
def Apart : Item → Item → Prop
  | .separator _, .separator _ => False
  | .listItems _, .listItems _ => False
  | .listItems _, .text _ => False
  | .text _, .text _ => False
  | _, _ => True

/-- Elements that the longest runs of some lines make up. -/
def InRuns (lines : List Text) (items : List Item) : Prop :=
  ∃ runs : List (List Text), lines = runs.flatten ∧ Forall₂ MakesUp runs items ∧
    items.IsChain Apart

/-! ## The machine -/

def opened (line : Text) : Line → Item
  | .blank => .separator (line ++ ['\n'])
  | .bullet item => .listItems [item]
  | .text value => .text [value]

def withLine (line : TagLine) (item : ListItem) : ListItem :=
  { item with contents := item.contents ++ [line.contents] }

/-- An element with one more line, if the line continues it. -/
def extend? : Item → Line → Option Item
  | .separator first, .blank => some (.separator first)
  | .listItems items, .bullet item => some (.listItems (items ++ [item]))
  | .listItems items, .text line => some (.listItems (items.modifyLast (withLine line)))
  | .text lines, .text line => some (.text (lines ++ [line]))
  | _, _ => none

/-- One step over a line: the newest element, which stands first, is made longer or another one is
begun. -/
def advance (items : List Item) (line : Text) (kind : Line) : List Item :=
  match items with
  | [] => [opened line kind]
  | item :: older =>
    match extend? item kind with
    | some longer => longer :: older
    | none => opened line kind :: item :: older

def machineFrom (items : List Item) : List Text → Option (List Item)
  | [] => some items.reverse
  | line :: lines => (line? line).bind fun kind => machineFrom (advance items line kind) lines

def machine (lines : List Text) : Option (List Item) := machineFrom [] lines

/-! ## Lines and their shapes -/

theorem isBullet_iff {c : Char} : isBullet c ↔ c = '+' ∨ c = '-' ∨ c = '*' := by
  simp [isBullet, or_assoc]

/-- Since a bullet is followed by a space, a line ends with a break if its text does. -/
theorem isSuffixOf_break (indent text : Text) (mark : Char) :
    "<br>".toList.isSuffixOf (indent ++ mark :: ' ' :: text) = (lastBreak? text == some []) := by
  rw [Bool.eq_iff_iff, isSuffixOf_iff_suffix, beq_iff_eq]
  constructor
  · rintro ⟨before, whole⟩
    have noSpace : ' ' ∉ "<br>".toList := by decide
    have split : before ++ "<br>".toList = (indent ++ [mark, ' ']) ++ text := by
      rw [whole, append_assoc, cons_append, singleton_append]
    rcases append_eq_append_iff.mp split with ⟨more, front, ends⟩ | ⟨more, _, rfl⟩
    · obtain rfl | ⟨first, last, rfl⟩ := eq_nil_or_concat' more
      · rw [nil_append] at ends
        rw [← ends]
        rfl
      · -- The mark would reach back to the space, but it holds none.
        have space : last = ' ' := by
          have same := congrArg List.getLast? front
          simpa using same.symm
        rw [ends, space] at noSpace
        simp at noSpace
    · exact lastBreak?_append more
  · intro found
    obtain ⟨before, rfl⟩ := exists_of_lastBreak? found
    exact ⟨indent ++ mark :: ' ' :: before, by simp [breakMark]⟩

theorem startsBullet_iff {c : Char} {rest : Text} :
    startsBullet (c :: rest) ↔ isBullet c ∧ rest.head? = some ' ' := by
  unfold startsBullet
  split
  · next mark text same =>
    cases same
    simp
  · next other =>
    refine ⟨nofun, fun ⟨_, space⟩ => ?_⟩
    obtain ⟨text, rfl⟩ := List.head?_eq_some_iff.mp space
    exact absurd rfl (other c text)

variable {line first : Text} {kind : Line} {item : Item} {run lines rest : List Text}
  {runs groups : List (List Text)} {items : List Item} {γ : Type} {texts : List TagLine}
  {value? : Text → Option (List γ)}

/-- A line that is classified has the shape of its class. -/
theorem shape_of_line? (found : line? line = some kind) : Shape line kind := by
  have whole : line.takeWhile isIndent ++ line.dropWhile isIndent = line :=
    takeWhile_append_dropWhile
  have indents := indents_takeWhile line
  unfold line? at found
  split at found
  · next empty =>
    cases found
    rw [empty, append_nil] at whole
    rw [whole] at indents
    exact .blank indents
  · next c rest body =>
    rw [body] at whole
    generalize line.takeWhile isIndent = indent at found whole indents
    subst whole
    split at found
    · next bullet =>
      obtain ⟨marks, space⟩ := startsBullet_iff.mp bullet
      obtain ⟨text, rfl⟩ := List.head?_eq_some_iff.mp space
      cases found
      rw [drop_one, tail_cons, ← isSuffixOf_break indent text c]
      exact .bullet indents (isBullet_iff.mp marks)
    · next other =>
      split at found
      · cases found
      · next solid =>
        cases found
        refine .text indents (by simpa using solid) fun marks space => other ?_
        exact startsBullet_iff.mpr ⟨isBullet_iff.mpr marks, space⟩

/-- The shape of a line gives its class. -/
theorem Shape.found (shape : Shape line kind) : line? line = some kind := by
  cases shape with
  | blank indents =>
    refine line?_eq_blank_iff.mpr (List.isEmpty_iff.mp ?_)
    rw [← all_eq_isEmpty_dropWhile]
    exact all_eq_true.mpr indents
  | @bullet indent text mark indents marks =>
    have stops : ∀ c ∈ (mark :: ' ' :: text).head?, isIndent c = false := by
      rintro c ⟨⟩
      rcases marks with rfl | rfl | rfl <;> rfl
    obtain ⟨taken, dropped⟩ := takeWhile_stop indents stops
    have starts : startsBullet (mark :: ' ' :: text) := isBullet_iff.mpr marks
    simp only [line?, taken, dropped, starts, if_true, isSuffixOf_break, drop_one, tail_cons]
  | @text indent rest c indents solid other =>
    have stops : ∀ d ∈ (c :: rest).head?, isIndent d = false := by
      rintro d ⟨⟩
      rw [← Bool.not_eq_true]
      intro indent
      rw [isBlank_of_isIndent indent] at solid
      cases solid
    obtain ⟨taken, dropped⟩ := takeWhile_stop indents stops
    have starts : ¬ startsBullet (c :: rest) := fun bullet =>
      other (isBullet_iff.mp (startsBullet_iff.mp bullet).1) (startsBullet_iff.mp bullet).2
    simp only [line?, taken, dropped, if_neg starts, solid, Bool.false_eq_true, if_false]

/-- A line is classified by what it looks like. -/
theorem line?_eq_some_iff :
    line? line = some kind ↔ Shape line kind := ⟨shape_of_line?, Shape.found⟩

/-! ## Steps of the machine -/

/-- A line begins another element exactly if it does not prolong the one before it. -/
theorem apart_opened (line : Text) :
    Apart item (opened line kind) ↔ extend? item kind = none := by
  cases item <;> cases kind <;> simp [Apart, opened, extend?]

theorem apart_extend {before longer : Item} (apart : Apart before item)
    (found : extend? item kind = some longer) : Apart before longer := by
  cases item <;> cases kind <;> cases found <;> cases before <;> exact apart

theorem makesUp_opened (shape : Shape line kind) : MakesUp [line] (opened line kind) := by
  cases kind with
  | blank => exact .separator (forall_mem_singleton.mpr shape)
  | bullet item =>
    have owns : Owns [line] { item with contents := item.contents ++ [] } := .group shape .nil
    rw [append_nil] at owns
    rw [← flatten_singleton (l := [line])]
    exact .listItems (cons_ne_nil _ _) (.cons owns .nil)
  | text value => exact .text (cons_ne_nil _ _) (.cons shape .nil)

theorem Owns.withLine {group : List Text} {item : ListItem} {value : TagLine}
    (owns : Owns group item) (text : IsText line value) :
    Owns (group ++ [line]) (withLine value item) := by
  cases owns with
  | group bullet owned =>
    have longer := Owns.group bullet (owned.concat text)
    simpa [Prose.withLine] using longer

/-- A run that is continued makes up the element that is longer by the line. -/
theorem MakesUp.extend {longer : Item} (made : MakesUp run item) (shape : Shape line kind)
    (found : extend? item kind = some longer) : MakesUp (run ++ [line]) longer := by
  cases made with
  | separator blank =>
    cases kind <;> cases found
    rw [cons_append]
    refine .separator fun other member => ?_
    rw [← cons_append] at member
    rcases mem_append.mp member with old | new
    · exact blank other old
    · exact mem_singleton.mp new ▸ shape
  | @listItems groups items someGroup owned =>
    cases kind with
    | blank => cases found
    | bullet item =>
      cases found
      have owns : Owns [line] { item with contents := item.contents ++ [] } := .group shape .nil
      rw [append_nil] at owns
      rw [← flatten_concat]
      exact .listItems (by simp) (owned.concat owns)
    | text value =>
      cases found
      obtain ⟨front, last, older, item, rfl, rfl, others, owns⟩ :=
        owned.exists_last someGroup
      have longer := others.concat (owns.withLine shape)
      rw [modifyLast_concat, flatten_concat, append_assoc, ← flatten_concat]
      exact .listItems (by simp) longer
  | text someLine textsOf =>
    cases kind <;> cases found
    exact .text (by simp) (textsOf.concat shape)

/-- One step keeps the elements so far made up of the longest runs. Both stand newest first. -/
theorem advance_runs (made : Forall₂ MakesUp runs items) (apart : items.IsChain (flip Apart))
    (shape : Shape line kind) :
    ∃ longer : List (List Text), longer.reverse.flatten = runs.reverse.flatten ++ [line] ∧
      Forall₂ MakesUp longer (advance items line kind) ∧
        (advance items line kind).IsChain (flip Apart) := by
  have first := makesUp_opened shape
  cases made with
  | nil => exact ⟨[[line]], rfl, .cons first .nil, .singleton _⟩
  | @cons run item runs items newest older =>
    rw [advance]
    cases found : extend? item kind with
    | none =>
      refine ⟨[line] :: run :: runs, ?_, .cons first (.cons newest older), ?_⟩
      · rw [reverse_cons, flatten_concat]
      · exact .cons_cons ((apart_opened line).mpr found) apart
    | some longer =>
      refine ⟨(run ++ [line]) :: runs, ?_, .cons (newest.extend shape found) older, ?_⟩
      · rw [reverse_cons, reverse_cons, flatten_concat, flatten_concat, append_assoc]
      · cases apart with
        | singleton => exact .singleton _
        | cons_cons before rest => exact .cons_cons (apart_extend before found) rest

/-- The machine finds the longest runs of lines that all have a shape. -/
theorem exists_machineFrom (made : Forall₂ MakesUp runs items)
    (apart : items.IsChain (flip Apart)) (shapes : ∀ line ∈ lines, ∃ kind, Shape line kind) :
    ∃ all, machineFrom items lines = some all ∧ InRuns (runs.reverse.flatten ++ lines) all := by
  induction lines generalizing runs items with
  | nil =>
    refine ⟨items.reverse, rfl, runs.reverse, append_nil _, ?_, ?_⟩
    · exact forall₂_reverse_iff.mpr made
    · exact isChain_reverse.mpr apart
  | cons line lines ih =>
    obtain ⟨kind, shape⟩ := shapes line mem_cons_self
    obtain ⟨longer, whole, made, apart⟩ := advance_runs made apart shape
    obtain ⟨all, found, inRuns⟩ :=
      ih made apart (forall_mem_cons.mp shapes).2
    rw [whole, append_assoc, singleton_append] at inRuns
    refine ⟨all, ?_, inRuns⟩
    rw [machineFrom, shape.found]
    exact found

theorem exists_machine (shapes : ∀ line ∈ lines, ∃ kind, Shape line kind) :
    ∃ items, machine lines = some items ∧ InRuns lines items :=
  exists_machineFrom .nil .nil shapes

/-! ## Taking runs -/

def Ends (item : Item) (rest : List Text) : Prop :=
  ∀ line ∈ rest.head?, ∀ kind, line? line = some kind → extend? item kind = none

theorem takeOne_eq_none (refused : ∀ line ∈ rest.head?, value? line = none) :
    takeOne value? rest = none := by
  cases rest with
  | nil => rfl
  | cons line rest => rw [takeOne, refused line rfl, map_none]

theorem runs_text (make : TagLine → γ) (textsOf : Forall₂ IsText lines texts)
    (stops : ∀ line ∈ rest.head?, ∀ value, line? line ≠ some (.text value)) :
    Runs (takeOne (textValue? make)) (lines ++ rest) (texts.map make) rest := by
  induction textsOf with
  | nil =>
    refine .stop (takeOne_eq_none fun line first => ?_)
    unfold textValue?
    split
    · next value found => exact absurd found (stops line first value)
    · rfl
  | @cons line value lines texts text _ ih =>
    have taken : takeOne (textValue? make) (line :: (lines ++ rest)) =
        some ([make value], lines ++ rest) := by
      simp only [takeOne, textValue?, text.found, map_some]
    exact .again taken ih

/-- An item is taken with its lines of text if its first line passes the test. -/
theorem bulletItem_eq {more : List Text} {item : ListItem}
    (bullet : Shape first (.bullet item)) (owned : Forall₂ IsText more texts)
    (stops : ∀ line ∈ rest.head?, ∀ value, line? line ≠ some (.text value)) (breaking : Bool)
    (test : ListItem → Bool) :
    bulletItem breaking test (first :: more ++ rest) =
      if test item then
        some ([{ item with breaking, contents := item.contents ++ texts.map (·.contents) }], rest)
      else none := by
  cases passes : test item with
  | false =>
    have refused : takeOne (startValue? test) (first :: more ++ rest) = none := by
      simp [takeOne, startValue?, bullet.found, passes]
    rw [bulletItem, takeText, takeEach, refused]
    rfl
  | true =>
    have start : takeOne (startValue? test) (first :: more ++ rest) =
        some ([.start { item with breaking := false }], more ++ rest) := by
      simp [takeOne, startValue?, bullet.found, passes]
    have lines := (shortens_takeOne _).takeMany_eq
      (runs_text (fun line => ItemPart.line line.contents) owned stops)
    have both : takeEach [takeOne (startValue? test),
        takeMany (takeOne (textValue? fun line => ItemPart.line line.contents))]
          (first :: more ++ rest) =
        some (.start { item with breaking := false } ::
          texts.flatMap fun line => [.line line.contents], rest) := by
      simp only [takeEach, start, lines, Option.bind_some, map_some, append_nil,
        singleton_append, map_eq_flatMap]
    rw [bulletItem, takeText_append both, itemOfParts_start]
    rfl

/-- An item is taken with the lines that it owns, the same whether or not it breaks. -/
theorem anyBulletItem_eq {group : List Text} {item : ListItem} (owns : Owns group item)
    (stops : ∀ line ∈ rest.head?, ∀ value, line? line ≠ some (.text value)) :
    anyBulletItem (group ++ rest) = some ([item], rest) := by
  cases owns with
  | @group first more item texts bullet owned =>
    have taken := bulletItem_eq bullet owned stops
    cases breaks : item.breaking with
    | true =>
      simp only [anyBulletItem, takeFirst, taken, breaks, if_true, some_or]
    | false =>
      simp only [anyBulletItem, takeFirst, taken, breaks, Bool.false_eq_true, if_false, if_true,
        none_or, some_or]

theorem anyBulletItem_eq_none
    (stops : ∀ line ∈ rest.head?, ∀ item, line? line ≠ some (.bullet item)) :
    anyBulletItem rest = none := by
  have refused : ∀ test, takeOne (startValue? test) rest = none := by
    refine fun test => takeOne_eq_none fun line first => ?_
    unfold startValue?
    split
    · next item found => exact absurd found (stops line first item)
    · rfl
  simp only [anyBulletItem, takeFirst, bulletItem, takeText, takeEach, refused, Option.bind_none,
    map_none, Option.or_none]

theorem runs_anyBulletItem {items : List ListItem} (owned : Forall₂ Owns groups items)
    (ends : Ends (.listItems items) rest) :
    Runs anyBulletItem (groups.flatten ++ rest) items rest := by
  have noBullet : ∀ line ∈ rest.head?, ∀ item, line? line ≠ some (.bullet item) :=
    fun line first item found => nomatch ends line first _ found
  have noText : ∀ line ∈ rest.head?, ∀ value, line? line ≠ some (.text value) :=
    fun line first value found => nomatch ends line first _ found
  clear ends
  induction owned with
  | nil => exact .stop (anyBulletItem_eq_none noBullet)
  | @cons group item groups items owns later ih =>
    rw [flatten_cons, append_assoc]
    refine .again (anyBulletItem_eq owns ?_) ih
    cases later with
    | nil => exact noText
    | cons next _ =>
      cases next with
      | group bullet _ =>
        rintro line ⟨⟩ value text
        rw [bullet.found] at text
        cases text

theorem runs_blank (blank : ∀ line ∈ lines, Shape line .blank)
    (stops : ∀ line ∈ rest.head?, line? line ≠ some .blank) :
    Runs (takeOne blankText?) (lines ++ rest) (unlines lines) rest := by
  induction lines with
  | nil => exact .stop (takeOne_eq_none fun line first => if_neg (stops line first))
  | cons line lines ih =>
    have found := (blank line mem_cons_self).found
    have taken : takeOne blankText? (line :: (lines ++ rest)) =
        some (line ++ ['\n'], lines ++ rest) := by
      simp only [takeOne, blankText?, found, if_true, map_some]
    exact .again taken (ih (forall_mem_cons.mp blank).2)

theorem separatorItem_eq {more : List Text} (blank : ∀ line ∈ first :: more, Shape line .blank)
    (ends : Ends (.separator (first ++ ['\n'])) rest) :
    separatorItem (first :: more ++ rest) = some ([.separator (first ++ ['\n'])], rest) := by
  have runs := runs_blank blank fun line head found => nomatch ends line head _ found
  have someText : unlines (first :: more) ≠ [] := fun empty =>
    cons_ne_nil _ _ (unlines_eq_nil empty)
  have unbroken : '\n' ∉ first := by
    cases blank first mem_cons_self with
    | blank indents => exact fun member => nomatch indents _ member
  rw [separatorItem, takeText_append ((shortens_takeOne _).takeSome_of_ne_nil runs someText),
    firstLine_source more unbroken]

theorem listItem_eq {items : List ListItem} (someGroup : groups ≠ [])
    (owned : Forall₂ Owns groups items) (ends : Ends (.listItems items) rest) :
    listItem (groups.flatten ++ rest) = some ([.listItems items], rest) := by
  have runs := runs_anyBulletItem owned ends
  have someItem : items ≠ [] := by
    rintro rfl
    exact someGroup (forall₂_nil_right_iff.mp owned)
  rw [listItem, takeText_append (shortens_anyBulletItem.takeSome_of_ne_nil runs someItem)]

theorem textItem_eq (someLine : lines ≠ []) (textsOf : Forall₂ IsText lines texts)
    (ends : Ends (.text texts) rest) : textItem (lines ++ rest) = some ([.text texts], rest) := by
  have runs := runs_text id textsOf fun line head value found => nomatch ends line head _ found
  rw [map_id] at runs
  have someText : texts ≠ [] := by
    rintro rfl
    exact someLine (forall₂_nil_right_iff.mp textsOf)
  rw [textItem, takeText_append ((shortens_takeOne _).takeSome_of_ne_nil runs someText)]

theorem separatorItem_eq_none (shape : Shape first kind) (other : kind ≠ .blank)
    (rest : List Text) : separatorItem (first :: rest) = none := by
  have refused : blankText? first = none := by
    rw [blankText?, shape.found, if_neg fun same => other (Option.some.inj same)]
  simp [separatorItem, takeText, takeSome, takeOne, refused]

theorem listItem_eq_none {value : TagLine} (text : IsText first value) (rest : List Text) :
    listItem (first :: rest) = none := by
  have refused : anyBulletItem (first :: rest) = none := by
    refine anyBulletItem_eq_none ?_
    rintro line ⟨⟩ item bullet
    rw [text.found] at bullet
    cases bullet
  simp [listItem, takeText, takeSome, refused]

/-- A run stands apart from what is before it exactly as its first line does. -/
theorem MakesUp.exists_first (made : MakesUp run item) :
    ∃ first more kind, run = first :: more ∧ Shape first kind ∧
      ∀ before, Apart before item → Apart before (opened first kind) := by
  cases made with
  | separator blank => exact ⟨_, _, _, rfl, blank _ mem_cons_self, fun _ => id⟩
  | listItems someGroup owned =>
    cases owned with
    | nil => exact absurd rfl someGroup
    | cons owns _ =>
      cases owns with
      | group bullet _ =>
        refine ⟨_, _, _, rfl, bullet, fun before apart => ?_⟩
        cases before <;> exact apart
  | text someLine textsOf =>
    cases textsOf with
    | nil => exact absurd rfl someLine
    | cons text _ =>
      refine ⟨_, _, _, rfl, text, fun before apart => ?_⟩
      cases before <;> exact apart

/-- One element is taken off the front of the lines that make it up, if none prolongs it. -/
theorem element_eq (made : MakesUp run item) (ends : Ends item rest) :
    element (run ++ rest) = some ([item], rest) := by
  cases made with
  | separator blank => rw [element, takeFirst, separatorItem_eq blank ends, some_or]
  | listItems someGroup owned =>
    have taken := listItem_eq someGroup owned ends
    cases owned with
    | nil => exact absurd rfl someGroup
    | cons owns _ =>
      cases owns with
      | group bullet _ =>
        have refused := separatorItem_eq_none bullet (by simp)
        rw [flatten_cons, cons_append, cons_append] at taken ⊢
        rw [element, takeFirst, takeFirst, refused, taken, none_or, some_or]
  | text someLine textsOf =>
    have taken := textItem_eq someLine textsOf ends
    cases textsOf with
    | nil => exact absurd rfl someLine
    | cons text _ =>
      have refused := separatorItem_eq_none text (by simp)
      rw [cons_append] at taken ⊢
      rw [element, takeFirst, takeFirst, takeFirst, refused, listItem_eq_none text, taken,
        none_or, none_or, some_or]

/-- The elements of the longest runs are taken one after the other. -/
theorem runs_element (made : Forall₂ MakesUp runs items) (apart : items.IsChain Apart) :
    Runs element runs.flatten items [] := by
  induction made with
  | nil => exact .stop rfl
  | @cons run item runs items first made ih =>
    have ends : Ends item runs.flatten := by
      cases made with
      | nil => exact nofun
      | cons next _ =>
        obtain ⟨line, more, kind, rfl, shape, before⟩ := next.exists_first
        rintro _ ⟨⟩ other found
        cases shape.found.symm.trans found
        exact (apart_opened line).mp (before item apart.rel)
    exact .again (element_eq first ends) (ih apart.of_cons)

theorem InRuns.takeAll_eq (inRuns : InRuns lines items) : takeAll element lines = (items, []) := by
  obtain ⟨runs, rfl, made, apart⟩ := inRuns
  exact shortens_element.takeAll_eq (runs_element made apart)

/-! ## What is taken -/

def Shaped (lines : List Text) : Prop := ∀ line ∈ lines, ∃ kind, Shape line kind

theorem adds_shaped (γ : Type) :
    Taking.Adds fun (taken : List Text) (_ : List γ) => Shaped taken :=
  ⟨nofun, fun first second line member =>
    (mem_append.mp member).elim (first line) (second line)⟩

theorem gives_shaped
    (known : ∀ {line values}, value? line = some values → ∃ kind, line? line = some kind) :
    (takeOne value?).Gives fun taken _ => Shaped taken := by
  refine Taking.gives_takeOne fun {line values} found => forall_mem_singleton.mpr ?_
  obtain ⟨kind, classified⟩ := known found
  exact ⟨kind, line?_eq_some_iff.mp classified⟩

theorem shaped_textLine (make : TagLine → γ) :
    (takeOne (textValue? make)).Gives fun taken _ => Shaped taken := by
  refine gives_shaped fun {line values} found => ?_
  unfold textValue? at found
  split at found
  · next value text => exact ⟨_, text⟩
  · cases found

theorem shaped_bulletItem (breaking : Bool) (test : ListItem → Bool) :
    (bulletItem breaking test).Gives fun taken _ => Shaped taken := by
  have start : (takeOne (startValue? test)).Gives fun taken _ => Shaped taken := by
    refine gives_shaped fun {line values} found => ?_
    unfold startValue? at found
    split at found
    · next item bullet => exact ⟨_, bullet⟩
    · cases found
  have lines := (shaped_textLine fun line => ItemPart.line line.contents).takeMany (adds_shaped _)
    (shortens_takeOne _)
  refine Taking.Gives.takeText (Taking.gives_takeEach (adds_shaped _) ?_)
  exact forall_mem_cons.mpr ⟨start, forall_mem_singleton.mpr lines⟩

theorem shaped_element : element.Gives fun taken _ => Shaped taken := by
  have blank : (takeOne blankText?).Gives fun taken _ => Shaped taken := by
    refine gives_shaped fun {line values} found => ?_
    unfold blankText? at found
    split at found
    · next blank => exact ⟨_, blank⟩
    · cases found
  have items : anyBulletItem.Gives fun taken _ => Shaped taken :=
    (shaped_bulletItem _ _).or ((shaped_bulletItem _ _).or Taking.gives_nothing)
  apply (Taking.Gives.takeText (blank.takeSome (adds_shaped _) (shortens_takeOne _))).or
  apply (Taking.Gives.takeText (items.takeSome (adds_shaped _) shortens_anyBulletItem)).or
  exact (Taking.Gives.takeText ((shaped_textLine id).takeSome (adds_shaped _)
    (shortens_takeOne _))).or Taking.gives_nothing

theorem shaped_of_takeAll (taken : takeAll element lines = (items, [])) : Shaped lines := by
  have runs := shortens_element.runs_takeAll lines
  rw [taken] at runs
  obtain ⟨all, whole, shaped⟩ := shaped_element.runs (adds_shaped _) runs
  rw [whole, append_nil]
  exact shaped

/-! ## Reading -/

section Reading

variable {lines : List Text} {items : List Item}

theorem shaped_of_machineFrom {before : List Item}
    (found : machineFrom before lines = some items) : Shaped lines := by
  induction lines generalizing before with
  | nil => exact nofun
  | cons line lines ih =>
    obtain ⟨kind, classified, later⟩ := Option.bind_eq_some_iff.mp found
    exact forall_mem_cons.mpr ⟨⟨kind, line?_eq_some_iff.mp classified⟩, ih later⟩

/-- All lines are taken as elements exactly if the machine finds these elements. -/
theorem takeAll_eq_iff_machine :
    takeAll element lines = (items, []) ↔ machine lines = some items := by
  constructor
  · intro taken
    obtain ⟨found, same, inRuns⟩ := exists_machine (shaped_of_takeAll taken)
    rw [same, ← (Prod.mk.inj (inRuns.takeAll_eq.symm.trans taken)).1]
  · intro found
    obtain ⟨other, same, inRuns⟩ := exists_machine (shaped_of_machineFrom found)
    rw [inRuns.takeAll_eq, Option.some.inj (same.symm.trans found)]

/-- The machine finds the longest runs and nothing else. -/
theorem machine_eq_some_iff : machine lines = some items ↔ InRuns lines items := by
  constructor
  · intro found
    obtain ⟨other, same, inRuns⟩ := exists_machine (shaped_of_machineFrom found)
    rwa [Option.some.inj (found.symm.trans same)]
  · intro inRuns
    exact takeAll_eq_iff_machine.mp inRuns.takeAll_eq

example : machine ["a".toList, "- b<br>".toList, " c".toList, "+ d".toList, [], " ".toList] =
    some
      [.text [{ lead := [], contents := "a".toList }],
        .listItems
          [{ breaking := true, head := "- b<br>".toList, start := "- ".toList
             contents := ["b<br>".toList, "c".toList] },
            { head := "+ d".toList, start := "+ ".toList, contents := ["d".toList] }],
        .separator "\n".toList] := by decide

end Reading

/-- Reading prose goes line by line. It succeeds exactly on a text of lines that all have a shape,
none of them without its line break, and gives what the machine finds; and what the machine finds is
made up of the longest runs of blank lines, of lines from a bullet line on and of other lines of
text. -/
theorem parse_eq_ok_iff_machine (text : Text) :
    ((∃ items, parse text = .ok items) ↔
      byteLength text ≤ inputLimit ∧ ∃ lines, Unbroken lines ∧ text = unlines lines ∧
        ∀ line ∈ lines, ∃ kind, Shape line kind) ∧
    (∀ items, parse text = .ok items ↔
      byteLength text ≤ inputLimit ∧ ∃ lines, Unbroken lines ∧ text = unlines lines ∧
        machine lines = some items) ∧
    ∀ lines items, machine lines = some items ↔ InRuns lines items := by
  have reads : ∀ items, parse text = .ok items ↔
      byteLength text ≤ inputLimit ∧ ∃ lines, Unbroken lines ∧ text = unlines lines ∧
        machine lines = some items := fun items => by
    simp only [parse_eq_ok_iff, takeAll_eq_iff_machine]
  refine ⟨?_, reads, fun lines items => machine_eq_some_iff⟩
  constructor
  · rintro ⟨items, parsed⟩
    obtain ⟨small, lines, unbroken, same, found⟩ := (reads items).mp parsed
    exact ⟨small, lines, unbroken, same, shaped_of_machineFrom found⟩
  · rintro ⟨small, lines, unbroken, same, shaped⟩
    obtain ⟨items, found, _⟩ := exists_machine shaped
    exact ⟨items, (reads items).mpr ⟨small, lines, unbroken, same, found⟩⟩

end Reflow.Document.Prose
