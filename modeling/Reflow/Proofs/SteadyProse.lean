import Reflow.Proofs.AlignedColumns
import Reflow.Proofs.FinalLineBreaks
import Reflow.Proofs.GuardRails
import Reflow.Proofs.OpeningWords

/-!
# Prose formatted twice

Formatted prose is formatted again as it is exactly if all its elements are steady
(`format_prose_again_iff`). Two things can move. Words that were joined behind a lone bullet are
read as a bullet item, whose later lines are written one tab deeper. And an item whose first line
has come to end with a break is read as one that breaks there, whose later lines are filled anew.
-/

namespace Reflow

open Text Layout List

/-! ## Texts that clash -/

/-- Two texts that differ in a character behind a common front. -/
def Clash (first second : Text) : Prop :=
  ∃ front c rest d others, c ≠ d ∧ first = front ++ c :: rest ∧ second = front ++ d :: others

section Clashes

variable {first second : Text}

theorem Clash.ne (clash : Clash first second) : first ≠ second := by
  obtain ⟨front, c, rest, d, others, differ, rfl, rfl⟩ := clash
  intro same
  exact differ (List.cons.inj (append_cancel_left same)).1

theorem Clash.symm (clash : Clash first second) : Clash second first := by
  obtain ⟨front, c, rest, d, others, differ, rfl, rfl⟩ := clash
  exact ⟨front, d, others, c, rest, differ.symm, rfl, rfl⟩

theorem Clash.append (clash : Clash first second) (front rest others : Text) :
    Clash (front ++ first ++ rest) (front ++ second ++ others) := by
  obtain ⟨shared, c, behind, d, back, differ, rfl, rfl⟩ := clash
  exact ⟨front ++ shared, c, behind ++ rest, d, back ++ others, differ, by simp, by simp⟩

end Clashes

/-- What is written again is the same text if a condition holds, and clashes with it otherwise. -/
structure Settles (steady : Prop) (again text : Text) : Prop where
  same : steady → again = text
  clash : ¬ steady → Clash again text

section Settling

variable {steady steadyLater : Prop} {again text againLater later : Text}

theorem Settles.eq_iff (settles : Settles steady again text) : again = text ↔ steady := by
  refine ⟨fun same => ?_, settles.same⟩
  by_contra moves
  exact (settles.clash moves).ne same

theorem Settles.of_eq (steadyHere : steady) (same : again = text) : Settles steady again text :=
  ⟨fun _ => same, fun moves => absurd steadyHere moves⟩

theorem Settles.behind (settles : Settles steady again text) (front : Text) :
    Settles steady (front ++ again) (front ++ text) where
  same here := by rw [settles.same here]
  clash moves := by simpa using (settles.clash moves).append front [] []

theorem Settles.append (settles : Settles steady again text)
    (settlesLater : Settles steadyLater againLater later) :
    Settles (steady ∧ steadyLater) (again ++ againLater) (text ++ later) where
  same both := by rw [settles.same both.1, settlesLater.same both.2]
  clash moves := by
    by_cases here : steady
    · rw [settles.same here]
      exact (settlesLater.behind text).clash fun there => moves ⟨here, there⟩
    · simpa using (settles.clash here).append [] againLater later

theorem Settles.flatMap {α β : Type} {steady : α → Prop} {compose : α → Text} {write : β → Text}
    {items : List α} {others : List β}
    (each : Forall₂ (fun item other => Settles (steady item) (write other) (compose item)) items
      others) :
    Settles (∀ item ∈ items, steady item) (others.flatMap write) (items.flatMap compose) := by
  induction each with
  | nil => exact .of_eq (forall_mem_nil _) rfl
  | cons here _ ih =>
    rw [forall_mem_cons, flatMap_cons, flatMap_cons]
    exact here.append ih

end Settling

/-! ## Texts formatted to themselves -/

theorem endsLine_closeLine (text : Text) : endsLine (closeLine text) := by
  unfold closeLine
  split
  · assumption
  · exact endsLine_concat text

theorem dropLineBreak_append {text : Text} (ends : endsLine text) :
    dropLineBreak text ++ ['\n'] = text := by
  rw [dropLineBreak, if_pos ends]
  exact dropLast_append_getLast? _ (beq_iff_eq.mp ends)

/-- A text is formatted to itself exactly if it is so with its last line closed. -/
theorem format_self_iff {style : Style} {kind : TextKind}
    (formatted : formatLines style (closeLine text) kind = .ok again) (ends : endsLine again) :
    format style kind text = .ok text ↔ again = closeLine text := by
  cases closed : endsLine text with
  | true =>
    have close : closeLine text = text := if_pos closed
    rw [close] at formatted ⊢
    rw [format, if_pos closed, formatted, Except.ok.injEq]
  | false =>
    have close : closeLine text = text ++ ['\n'] := by simp [closeLine, closed]
    rw [close] at formatted ⊢
    rw [format_of_open closed, formatted]
    constructor
    · rintro ⟨whole, found, rfl⟩
      cases found
      exact (dropLineBreak_append ends).symm
    · rintro rfl
      exact ⟨_, rfl, dropLineBreak_concat text⟩

namespace Layout

/-! ## Lines of the same words -/

section SameWords

variable {first second more others : List Text}

/-- Two lines that begin the same row of words are the same, or they part where one of them ends. -/
theorem eq_or_clash_joinWords (someWord : first ≠ []) (someOther : second ≠ [])
    (same : first ++ more = second ++ others) : first = second ∨ ∀ rest tail,
      Clash (joinWords first ++ '\n' :: rest) (joinWords second ++ '\n' :: tail) := by
  have parts : ∀ {front back : List Text}, front ≠ [] → back ≠ [] → ∀ rest tail,
      Clash (joinWords front ++ '\n' :: rest) (joinWords (front ++ back) ++ '\n' :: tail) := by
    intro front back someFront someBack rest tail
    rw [joinWords_append someFront someBack]
    exact ⟨joinWords front, '\n', rest, ' ', _, by decide, rfl, append_assoc _ _ _⟩
  rcases append_eq_append_iff.mp same with ⟨back, rfl, -⟩ | ⟨back, rfl, -⟩
  · by_cases nothing : back = []
    · simp [nothing]
    · exact .inr (parts someWord nothing)
  · by_cases nothing : back = []
    · simp [nothing]
    · exact .inr fun rest tail => (parts someOther nothing tail rest).symm

variable {filled refilled : List (List Text)}

theorem clash_leadLines (lead : Text) (someWords : ∀ line ∈ filled, line ≠ [])
    (someOthers : ∀ line ∈ refilled, line ≠ []) (same : filled.flatten = refilled.flatten)
    (differ : filled ≠ refilled) :
    Clash (leadLines lead (filled.map joinWords)) (leadLines lead (refilled.map joinWords)) := by
  induction filled generalizing refilled with
  | nil =>
    cases refilled with
    | nil => exact absurd rfl differ
    | cons other others =>
      have empty := (append_eq_nil_iff.mp same.symm).1
      exact absurd empty (someOthers other mem_cons_self)
  | cons line lines ih =>
    obtain ⟨here, later⟩ := forall_mem_cons.mp someWords
    cases refilled with
    | nil => exact absurd (append_eq_nil_iff.mp same).1 here
    | cons other others =>
      obtain ⟨there, laterOthers⟩ := forall_mem_cons.mp someOthers
      rcases eq_or_clash_joinWords here there same with rfl | clash
      · have below := ih later laterOthers (append_cancel_left same) fun equal =>
          differ (congrArg _ equal)
        simpa [leadLines] using below.append (lead ++ joinWords line ++ ['\n']) [] []
      · simpa [leadLines] using (clash (leadLines lead (lines.map joinWords))
          (leadLines lead (others.map joinWords))).append lead [] []

end SameWords

/-! ## Words on one line -/

theorem Wrap.fillWords_single (wrap : Wrap) {given : List Text} (someWord : given ≠ [])
    (fits : FitsIn (wrap.width - wrap.initial) (units wrap.sticky given)) :
    wrap.fillWords given = [given] := by
  obtain ⟨runs, same, filling⟩ := wrap.fillWords_isFilling given
  have layout : IsLayout (wrap.width - wrap.later) (wrap.width - wrap.initial)
      ([] ++ units wrap.sticky given) [units wrap.sticky given] :=
    ⟨by simp, by simpa using fits, by simp⟩
  have few := filling.length_le layout
  have someLine := wrap.fillWords_ne_nil someWord
  rcases runs with _ | ⟨run, _ | ⟨next, runs⟩⟩
  · exact absurd same someLine
  · have cut : run = units wrap.sticky given := by simpa using filling.cut
    rw [same, cut, map_singleton, flatten_units]
  · simp at few

/-- Units are as wide on a line as their words. -/
theorem runWidth_eq_textWidth {run : Run} (someWord : ∀ unit ∈ run, unit ≠ []) :
    runWidth run = textWidth (joinWords run.flatten) := by
  induction run with
  | nil => rfl
  | cons unit rest ih =>
    obtain ⟨here, later⟩ := forall_mem_cons.mp someWord
    cases rest with
    | nil => rw [flatten_singleton, runWidth, unitWidth]
    | cons next rest =>
      have behind : (next :: rest).flatten ≠ [] :=
        append_ne_nil_of_left_ne_nil (later next mem_cons_self) _
      have cut : (unit :: next :: rest).flatten = unit ++ (next :: rest).flatten := rfl
      rw [runWidth, ih later, cut, joinWords_append here behind, textWidth_append_space, unitWidth]

/-- If words behind a bullet fit on a line with it, they fit into what the bullet leaves. -/
theorem FitsIn.of_bullet {sticky : Sticky} {mark : Text} {given : List Text}
    {budget : Nat} (someWord : given ≠ []) (narrow : textWidth mark = 1)
    (fits : FitsIn budget (units sticky (mark :: given))) :
    FitsIn (budget - 2) (units sticky given) := by
  have width : ∀ given, runWidth (units sticky given) = textWidth (joinWords given) := by
    intro given
    rw [runWidth_eq_textWidth, flatten_units]
    rintro _ member rfl
    exact isUnit_of_mem_units sticky given [] member
  rcases fits with single | room
  · have someUnit : units sticky given ≠ [] := by
      intro none
      have whole := flatten_units sticky given
      rw [none] at whole
      exact someWord whole.symm
    have longer : (units sticky given).length ≤ (units sticky (mark :: given)).length := by
      change _ ≤ (consUnit sticky mark (units sticky given)).length
      unfold consUnit
      split
      · next same =>
        rw [same]
        split <;> simp
      · simp
    have positive := length_pos_of_ne_nil someUnit
    exact .inl (by omega)
  · obtain ⟨word, more, rfl⟩ := exists_cons_of_ne_nil someWord
    rw [width, joinWords_cons_cons, textWidth_append_space, narrow] at room
    exact .inr (by rw [width]; omega)

end Layout

namespace Document

/-- What stands before the bullet of an item. -/
def ListItem.front (item : ListItem) : Text := item.lead ++ item.indent

/-- The words of an item, filled into lines behind its bullet. -/
def ListItem.filled (ctx : Context) (item : ListItem) : List (List Text) :=
  (ctx.wrapBullet item.front item.start).fillWords (item.contents.flatMap words)

/-- Words filled into lines below the first line of an item. -/
def ListItem.fillBelow (ctx : Context) (item : ListItem) (given : List Text) :
    List (List Text) :=
  (ctx.wrapBehind (item.front ++ ['\t'])).fillWords given

theorem ListItem.compose_plain (ctx : Context) {item : ListItem} (plain : item.breaking = false) :
    item.compose ctx =
      hanging item.front item.start ['\t'] (item.front ++ item.start) (item.filled ctx) := by
  rw [ListItem.compose, plain, ListItem.filled, ← words_joinContents]
  rw [if_neg Bool.false_ne_true, bullet, Wrap.lines]
  unfold Context.wrapBullet ListItem.front
  cases Wrap.fillWords _ (words (joinContents item.contents)) <;> rfl

theorem ListItem.compose_breaking (ctx : Context) {item : ListItem} (breaks : item.breaking) :
    item.compose ctx = trimEnd item.head ++ '\n' :: leadLines (item.front ++ ['\t'])
      ((item.fillBelow ctx ((item.contents.drop 1).flatMap words)).map joinWords) := by
  rw [ListItem.compose, breaks, if_pos rfl, Layout.breaking, Wrap.lines, words_joinContents,
    append_assoc]
  rfl

namespace Prose

open Reflow.Expr

/-! ## Steady elements -/

/-- Whether lines of words begin with a bullet and have words both behind it and below. -/
def drifts : List (List Text) → Bool
  | (mark :: _ :: _) :: _ :: _ => opensBullet mark
  | _ => false

/-- Whether an item is written in lines that are written again as they are. What is below a break
may not drift; and if the first line has come to end with a break, the other lines have to be those
that are filled below it. -/
def steadyItem (ctx : Context) (item : ListItem) : Bool :=
  if item.breaking then !drifts (item.fillBelow ctx ((item.contents.drop 1).flatMap words))
  else
    let filled := item.filled ctx
    !"<br>".toList.isSuffixOf (item.front ++ item.start ++ joinWords (filled.headD [])) ||
      item.fillBelow ctx filled.tail.flatten == filled.tail

/-- Whether an element is written in lines that are written again as they are. -/
def steady (ctx : Context) : Item → Bool
  | .separator _ => true
  | .text lines => !drifts ((ctx.wrapBehind (leadOf lines)).fillWords (words (joinLines lines)))
  | .listItems items => items.all (steadyItem ctx)

/-! ## Lines of words -/

section Lines

variable {lead : Text} {filled : List (List Text)}

/-- No bullet begins a line and has a word behind it. -/
def Free (line : List Text) : Prop :=
  ∃ word rest, line = word :: rest ∧ (opensBullet word = false ∨ rest = [])

theorem free_below {wrap : Wrap} (sticky : wrap.sticky = opensBullet) (given : List Text) :
    ∀ line ∈ (wrap.fillWords given).tail, Free line := by
  intro line member
  obtain ⟨word, rest, same, openFront⟩ := wrap.begin_of_mem_tail_fillWords given line member
  exact ⟨word, rest, same, .inl (sticky ▸ openFront)⟩

/-- Lines of words behind a lead. -/
def behind (lead : Text) (filled : List (List Text)) : List Text :=
  filled.map (lead ++ joinWords ·)

/-- The lines of text that lines of words behind a lead are read as. -/
def textLines (lead : Text) (filled : List (List Text)) : List TagLine :=
  filled.map fun line => { lead, contents := joinWords line }

theorem unlines_behind (lead : Text) (filled : List (List Text)) :
    unlines (behind lead filled) = leadLines lead (filled.map joinWords) := by
  rw [behind, unlines, leadLines, flatMap_map, flatMap_map]

theorem leadOf_textLines (someLine : filled ≠ []) : leadOf (textLines lead filled) = lead := by
  obtain ⟨first, rest, rfl⟩ := exists_cons_of_ne_nil someLine
  rfl

variable (isWord : ∀ line ∈ filled, ∀ word ∈ line, IsWord word)

include isWord

theorem flatMap_words_lines : (filled.map joinWords).flatMap words = filled.flatten := by
  rw [flatMap_map, flatMap_def,
    map_congr_left fun line member => words_joinWords (isWord line member), map_id']

theorem words_textLines (lead : Text) :
    words (joinLines (textLines lead filled)) = filled.flatten := by
  rw [words_joinLines, allWords, textLines, flatMap_map, ← flatMap_words_lines isWord, flatMap_map]

variable (indents : Indents lead)

include indents

theorem unbroken_behind : Unbroken (behind lead filled) := by
  intro line member inside
  obtain ⟨given, listed, rfl⟩ := mem_map.mp member
  rcases mem_append.mp inside with early | late
  · cases indents _ early
  · exact unbroken_joinWords (isWord given listed) late

/-- Lines of words that begin with no bullet are text. -/
theorem isText_behind (free : ∀ line ∈ filled, Free line) :
    Forall₂ IsText (behind lead filled) (textLines lead filled) := by
  rw [behind, textLines, forall₂_map_left_iff, forall₂_map_right_iff, forall₂_same]
  intro line member
  obtain ⟨word, rest, rfl, openFront⟩ := free line member
  have given := isWord _ member
  have starts : startsBullet (joinWords (word :: rest) ++ []) = _ :=
    startsBullet_joinWords (given word mem_cons_self) atEnd_nil
  have solid := solid_joinWords given
  cases joined : joinWords (word :: rest) with
  | nil => exact absurd joined (joinWords_ne_nil (given word mem_cons_self) rest)
  | cons c chars =>
    rw [append_nil, joined] at starts
    rw [joined] at solid
    refine .text indents (solid c rfl) fun marks space => ?_
    rw [startsBullet_iff.mpr ⟨isBullet_iff.mpr marks, space⟩] at starts
    rcases openFront with free | alone
    · simp [free] at starts
    · simp [alone] at starts

end Lines

/-! ## Items -/

section Items

variable {ctx : Context} {lead : Text}

/-- A line that ends with a break is not trimmed. -/
theorem trimEnd_break {line : Text} (breaks : "<br>".toList.isSuffixOf line) :
    trimEnd line = line := by
  obtain ⟨front, rfl⟩ := isSuffixOf_iff_suffix.mp breaks
  refine dropEndWhile_eq_self fun c last => ?_
  rw [List.getLast?_append] at last
  cases last
  rfl

/-- The item that is read from words behind a bullet and lines of words below. -/
def itemOf (lead : Text) (c : Char) (first : List Text) (rest : List (List Text)) : ListItem :=
  { breaking := "<br>".toList.isSuffixOf (lead ++ c :: ' ' :: joinWords first)
    head := lead ++ c :: ' ' :: joinWords first
    indent := lead
    start := [c, ' ']
    contents := joinWords first :: rest.map joinWords }

section ItemOf

variable {c : Char} (first : List Text) {rest : List (List Text)}

theorem owns_itemOf (indents : Indents lead) (marks : c = '+' ∨ c = '-' ∨ c = '*')
    {deeper : Text} (texts : Forall₂ IsText (behind deeper rest) (textLines deeper rest)) :
    Owns ((lead ++ c :: ' ' :: joinWords first) :: behind deeper rest) (itemOf lead c first rest) := by
  have bullet : Shape (lead ++ c :: ' ' :: joinWords first) _ := .bullet indents marks
  have owns := Owns.group bullet texts
  rwa [textLines, map_map] at owns

variable {first} (here : ∀ word ∈ first, IsWord word)
  (later : ∀ line ∈ rest, ∀ word ∈ line, IsWord word)

include here later

theorem compose_itemOf (ctx : Context) : (itemOf lead c first rest).compose ctx =
    if "<br>".toList.isSuffixOf (lead ++ c :: ' ' :: joinWords first) then
      lead ++ c :: ' ' :: joinWords first ++ '\n' :: leadLines (lead ++ ['\t'])
        (((ctx.wrapBehind (lead ++ ['\t'])).fillWords rest.flatten).map joinWords)
    else hanging lead [c, ' '] ['\t'] (lead ++ [c, ' '])
      ((ctx.wrapBullet lead [c, ' ']).fillWords (first ++ rest.flatten)) := by
  have below := flatMap_words_lines later
  split
  · next breaks =>
    rw [ListItem.compose_breaking ctx breaks, itemOf, trimEnd_break breaks, drop_one,
      tail_cons, below]
    rfl
  · next plain =>
    rw [ListItem.compose_plain ctx (eq_false_of_ne_true plain), ListItem.filled, itemOf,
      flatMap_cons, below, words_joinWords here]
    rfl

end ItemOf

/-- Lines behind a lead and lines of the same words behind the lead and a tab clash, if there are
any. -/
theorem settles_tab (lead : Text) {filled refilled : List (List Text)}
    (isWord : ∀ line ∈ filled, ∀ word ∈ line, IsWord word) (someWords : ∀ line ∈ filled, line ≠ [])
    (someOthers : ∀ line ∈ refilled, line ≠ []) (same : refilled.flatten = filled.flatten) :
    Settles (filled = []) (leadLines (lead ++ ['\t']) (refilled.map joinWords))
      (leadLines lead (filled.map joinWords)) := by
  rcases filled with _ | ⟨_ | ⟨word, more⟩, lines⟩ <;> rcases refilled with _ | ⟨other, others⟩
  · exact .of_eq rfl rfl
  · exact absurd (append_eq_nil_iff.mp same).1 (someOthers other mem_cons_self)
  · exact absurd rfl (someWords [] mem_cons_self)
  · exact absurd rfl (someWords [] mem_cons_self)
  · cases same
  · refine ⟨fun empty => absurd empty (cons_ne_nil _ _), fun _ => ?_⟩
    have first := isWord _ mem_cons_self word mem_cons_self
    obtain ⟨tail, joined, -⟩ := joinWords_cons word more
    obtain ⟨c, chars, rfl⟩ := exists_cons_of_ne_nil first.nonempty
    have solid := first.solid c mem_cons_self
    refine ⟨lead, '\t', joinWords other ++ '\n' :: leadLines (lead ++ ['\t']) (others.map joinWords),
      c, chars ++ tail ++ '\n' :: leadLines lead (lines.map joinWords), ?_, ?_, ?_⟩
    · rintro rfl
      cases solid
    · simp [leadLines]
    · simp [leadLines, joined]

theorem exists_bullet {mark : Text} (marks : opensBullet mark) :
    ∃ c, mark = [c] ∧ (c = '+' ∨ c = '-' ∨ c = '*') ∧ textWidth [c] = 1 ∧ textWidth [c, ' '] = 2 := by
  simp only [opensBullet, Bool.or_eq_true, beq_iff_eq] at marks
  rcases marks with (rfl | rfl) | rfl
  · exact ⟨'+', rfl, by simp, by decide, by decide⟩
  · exact ⟨'-', rfl, by simp, by decide, by decide⟩
  · exact ⟨'*', rfl, by simp, by decide, by decide⟩

/-- Words that are filled into one line behind a lead and begin with a bullet are filled into one
line behind the bullet. -/
theorem fillWords_behind_bullet {c : Char} (narrow : textWidth [c] = 1)
    (start : textWidth [c, ' '] = 2) {given : List Text} (someWord : given ≠ [])
    (filled : (ctx.wrapBehind lead).fillWords ([c] :: given) = [[c] :: given]) :
    (ctx.wrapBullet lead [c, ' ']).fillWords given = [given] := by
  refine Wrap.fillWords_single _ someWord ?_
  obtain ⟨runs, same, filling⟩ := (ctx.wrapBehind lead).fillWords_isFilling ([c] :: given)
  rw [filled] at same
  obtain ⟨run, rfl, -⟩ := map_eq_singleton_iff.mp same.symm
  have cut : run = units ctx.sticky ([c] :: given) := (append_nil run).symm.trans filling.cut
  have fits := filling.first run rfl
  rw [cut] at fits
  have room := fits.of_bullet someWord narrow
  change FitsIn (_ - textWidth [c, ' ']) _
  rw [start]
  exact room

/-- Lines behind a bullet, or the bullet alone. -/
theorem hanging_bullet (lead : Text) (c : Char) (filled : List (List Text)) :
    hanging lead [c, ' '] ['\t'] (lead ++ [c, ' ']) filled =
      lead ++ c :: ' ' :: joinWords (filled.headD []) ++
        '\n' :: leadLines (lead ++ ['\t']) (filled.tail.map joinWords) := by
  cases filled <;> simp [hanging, joinWords, leadLines]

/-- Lines that begin with a bullet are read as one item. If there is only one line, it is written
again as it is; otherwise the lines below the first one are written one tab deeper. -/
theorem settles_bulleted {c : Char} (narrow : textWidth [c] = 1) (start : textWidth [c, ' '] = 2)
    {first : List Text} {rest : List (List Text)} (someWord : first ≠ [])
    (isWord : ∀ line ∈ first :: rest, ∀ word ∈ line, IsWord word)
    (someWords : ∀ line ∈ rest, line ≠ [])
    (filled : (ctx.wrapBehind lead).fillWords ([c] :: first ++ rest.flatten) =
      ([c] :: first) :: rest) :
    Settles (rest = []) ((itemOf lead c first rest).compose ctx)
      (leadLines lead ((([c] :: first) :: rest).map joinWords)) := by
  obtain ⟨here, later⟩ := forall_mem_cons.mp isWord
  have written : leadLines lead ((([c] :: first) :: rest).map joinWords) =
      lead ++ c :: ' ' :: joinWords first ++ '\n' :: leadLines lead (rest.map joinWords) := by
    obtain ⟨word, more, rfl⟩ := exists_cons_of_ne_nil someWord
    simp [leadLines, joinWords_cons_cons]
  rw [written, compose_itemOf here later]
  split
  · have below := settles_tab lead later someWords (Wrap.ne_nil_of_mem_fillWords _ _)
      ((ctx.wrapBehind (lead ++ ['\t'])).flatten_fillWords rest.flatten)
    exact (below.behind ['\n']).behind _
  · have whole := (ctx.wrapBullet lead [c, ' ']).flatten_fillWords (first ++ rest.flatten)
    have someOthers := (ctx.wrapBullet lead [c, ' ']).ne_nil_of_mem_fillWords (first ++ rest.flatten)
    rw [hanging_bullet]
    cases again : (ctx.wrapBullet lead [c, ' ']).fillWords (first ++ rest.flatten) with
    | nil =>
      rw [again] at whole
      exact absurd (append_eq_nil_iff.mp whole.symm).1 someWord
    | cons line lines =>
      rw [again] at whole someOthers
      obtain ⟨someLine, someLines⟩ := forall_mem_cons.mp someOthers
      rcases eq_or_clash_joinWords someLine someWord whole with rfl | clash
      · have below := settles_tab lead later someWords someLines (append_cancel_left whole)
        exact (below.behind ['\n']).behind _
      · constructor
        · rintro rfl
          rw [flatten_nil, append_nil] at filled again
          rw [fillWords_behind_bullet narrow start someWord filled] at again
          cases again
          exact absurd rfl (clash [] []).ne
        · intro _
          simpa using (clash _ _).append (lead ++ [c, ' ']) [] []

/-- Words that are filled into lines behind a lead are read as lines of text, or as an item if they
begin with a bullet. Then they are written again as they are unless they drift. -/
theorem rereads_lines (sticky : ctx.sticky = opensBullet)
    (indents : Indents lead) {given : List Text} (isWord : ∀ word ∈ given, IsWord word) :
    let filled := (ctx.wrapBehind lead).fillWords given
    (∃ item, Owns (behind lead filled) item ∧
      Settles (drifts filled = false) (item.compose ctx) (leadLines lead (filled.map joinWords))) ∨
    (drifts filled = false ∧
      Forall₂ IsText (behind lead filled) (textLines lead filled)) := by
  intro filled
  have whole : filled.flatten = given := Wrap.flatten_fillWords _ given
  have wordsOf : ∀ line ∈ filled, ∀ word ∈ line, IsWord word := Wrap.isWord_of_mem_fillWords _ isWord
  have someWords : ∀ line ∈ filled, line ≠ [] := Wrap.ne_nil_of_mem_fillWords _ given
  have free : ∀ line ∈ filled.tail, Free line := free_below sticky given
  rcases split : filled with _ | ⟨_ | ⟨mark, first⟩, rest⟩
  · exact .inr ⟨rfl, .nil⟩
  · exact absurd rfl (someWords [] (split ▸ mem_cons_self))
  rw [split] at wordsOf someWords free
  have again : (ctx.wrapBehind lead).fillWords (mark :: first ++ rest.flatten) =
      (mark :: first) :: rest := by
    rw [← flatten_cons, ← split, whole]
  have later := (forall_mem_cons.mp wordsOf).2
  by_cases bulleted : opensBullet mark ∧ first ≠ []
  · obtain ⟨c, rfl, marks, narrow, start⟩ := exists_bullet bulleted.1
    obtain ⟨word, more, rfl⟩ := exists_cons_of_ne_nil bulleted.2
    refine .inl ⟨_, owns_itemOf _ indents marks (isText_behind later indents free), ?_⟩
    have settles := settles_bulleted narrow start (cons_ne_nil word more)
      (forall_mem_cons.mpr ⟨fun other member => wordsOf _ mem_cons_self other
        (mem_cons_of_mem _ member), later⟩)
      (forall_mem_cons.mp someWords).2 again
    have only : drifts (([c] :: word :: more) :: rest) = false ↔ rest = [] := by
      cases rest <;> simp [drifts, bulleted.1]
    rwa [only]
  · have openFirst : opensBullet mark = false ∨ first = [] := by
      simpa [or_iff_not_imp_left] using bulleted
    refine .inr ⟨?_, isText_behind wordsOf indents (forall_mem_cons.mpr
      ⟨⟨mark, first, rfl, openFirst⟩, free⟩)⟩
    unfold drifts
    split
    · next same =>
      cases same
      exact openFirst.resolve_right (cons_ne_nil _ _)
    · rfl

theorem isWord_of_mem_contents {contents : List Text} :
    ∀ word ∈ contents.flatMap words, IsWord word := fun word member => by
  obtain ⟨text, -, inside⟩ := mem_flatMap.mp member
  exact isWord_of_mem_words inside

/-- Items that are read again from what is written for an item. -/
def Rereads (ctx : Context) (item : ListItem) : Prop :=
  ∃ groups items, groups ≠ [] ∧ Forall₂ Owns groups items ∧ Unbroken groups.flatten ∧
    unlines groups.flatten = item.compose ctx ∧
    Settles (steadyItem ctx item) (items.flatMap (ListItem.compose ctx)) (item.compose ctx)

theorem unbroken_bullet (indents : Indents lead) {c : Char}
    (marks : c = '+' ∨ c = '-' ∨ c = '*') {first : List Text}
    (here : ∀ word ∈ first, IsWord word) : '\n' ∉ lead ++ c :: ' ' :: joinWords first := by
  have solid : c ≠ '\n' := by rcases marks with rfl | rfl | rfl <;> decide
  have blanks : '\n' ∉ lead := fun member => Bool.false_ne_true (indents _ member)
  simp [blanks, solid.symm, unbroken_joinWords here]

theorem isWord_of_mem_filled (ctx : Context) (item : ListItem) :
    ∀ line ∈ item.filled ctx, ∀ word ∈ line, IsWord word :=
  Wrap.isWord_of_mem_fillWords _ isWord_of_mem_contents

theorem isWord_of_mem_headD {filled : List (List Text)}
    (isWord : ∀ line ∈ filled, ∀ word ∈ line, IsWord word) :
    ∀ word ∈ filled.headD [], IsWord word := by
  cases filled with
  | nil => simp
  | cons line lines => exact isWord line mem_cons_self

section Plain

variable {item : ListItem} {c : Char} (plain : item.breaking = false)
  (start : item.start = [c, ' '])

include plain start

theorem compose_bullet (ctx : Context) : item.compose ctx =
    item.front ++ c :: ' ' :: joinWords ((item.filled ctx).headD []) ++
      '\n' :: leadLines (item.front ++ ['\t']) ((item.filled ctx).tail.map joinWords) := by
  rw [ListItem.compose_plain ctx plain, start, hanging_bullet]

/-- The item that is read from what is written for one is written so exactly if that one is
steady. -/
theorem settles_plain (ctx : Context) : Settles (steadyItem ctx item)
    ((itemOf item.front c ((item.filled ctx).headD []) (item.filled ctx).tail).compose ctx)
    (item.compose ctx) := by
  have written := compose_bullet plain start ctx
  have again : (ctx.wrapBullet item.front [c, ' ']).fillWords (item.contents.flatMap words) =
      item.filled ctx := by rw [ListItem.filled, start]
  have steadily : steadyItem ctx item = (!"<br>".toList.isSuffixOf
      (item.front ++ c :: ' ' :: joinWords ((item.filled ctx).headD [])) ||
        item.fillBelow ctx (item.filled ctx).tail.flatten == (item.filled ctx).tail) := by
    simp [steadyItem, plain, start]
  have whole : (item.filled ctx).flatten = item.contents.flatMap words := Wrap.flatten_fillWords _ _
  have isWord := isWord_of_mem_filled ctx item
  have someWords : ∀ line ∈ item.filled ctx, line ≠ [] := Wrap.ne_nil_of_mem_fillWords _ _
  generalize item.filled ctx = filled at *
  have joins : filled.headD [] ++ filled.tail.flatten = item.contents.flatMap words := by
    rw [← whole]
    cases filled <;> rfl
  have later := fun line member => isWord line (mem_of_mem_tail member)
  rw [compose_itemOf (isWord_of_mem_headD isWord) later, steadily, written]
  split
  · next breaks =>
    have below : Settles (item.fillBelow ctx filled.tail.flatten = filled.tail)
        (leadLines (item.front ++ ['\t']) ((item.fillBelow ctx filled.tail.flatten).map joinWords))
        (leadLines (item.front ++ ['\t']) (filled.tail.map joinWords)) :=
      ⟨fun same => by rw [same], clash_leadLines _ (Wrap.ne_nil_of_mem_fillWords _ _)
        (fun line member => someWords line (mem_of_mem_tail member))
        (Wrap.flatten_fillWords _ _)⟩
    rw [breaks, Bool.not_true, Bool.false_or, beq_iff_eq]
    exact (below.behind ['\n']).behind _
  · next breaks =>
    rw [joins, again, hanging_bullet, eq_false_of_ne_true breaks]
    exact .of_eq rfl rfl

theorem rereads_plain (sticky : ctx.sticky = opensBullet) (indents : Indents item.front)
    (marks : c = '+' ∨ c = '-' ∨ c = '*') : Rereads ctx item := by
  have isWord := isWord_of_mem_filled ctx item
  have later := fun line member => isWord line (mem_of_mem_tail member)
  have deeper := indents.append indents_tab
  have owns := owns_itemOf ((item.filled ctx).headD []) indents marks
    (isText_behind later deeper (free_below sticky _))
  refine ⟨[_], [_], cons_ne_nil _ _, .cons owns .nil, ?_, ?_, ?_⟩
  · rw [flatten_singleton]
    exact forall_mem_cons.mpr
      ⟨unbroken_bullet indents marks (isWord_of_mem_headD isWord), unbroken_behind later deeper⟩
  · rw [flatten_singleton, unlines_cons, unlines_behind, compose_bullet plain start]
  · rw [flatMap_singleton]
    exact settles_plain plain start ctx

end Plain

section Breaking

variable {start : ListItem} {text : Text} (one : start.contents = [text])
  (breaking : start.breaking) (breaks : "<br>".toList.isSuffixOf start.head)

include one breaking breaks

/-- What is written for an item that breaks. -/
theorem compose_below (ctx : Context) (more : List Text) :
    ({ start with contents := start.contents ++ more } : ListItem).compose ctx =
      start.head ++ '\n' :: leadLines (start.front ++ ['\t'])
        ((start.fillBelow ctx (more.flatMap words)).map joinWords) := by
  rw [ListItem.compose_breaking ctx, trimEnd_break breaks, one]
  · rfl
  · exact breaking

/-- Below its first line, it is filled again as it is. -/
theorem compose_refilled (ctx : Context) (more : List Text) :
    ({ start with contents := start.contents ++
        (start.fillBelow ctx (more.flatMap words)).map joinWords } : ListItem).compose ctx =
      ({ start with contents := start.contents ++ more } : ListItem).compose ctx := by
  have below := flatMap_words_lines ((ctx.wrapBehind (start.front ++ ['\t'])).isWord_of_mem_fillWords
    (@isWord_of_mem_contents more))
  rw [Wrap.flatten_fillWords] at below
  rw [compose_below one breaking breaks, compose_below one breaking breaks]
  exact congrArg
    (fun given => _ ++ '\n' :: leadLines _ ((start.fillBelow ctx given).map joinWords)) below

end Breaking

theorem rereads_breaking (sticky : ctx.sticky = opensBullet) {line : Text} {start : ListItem}
    (bullet : Shape line (.bullet start)) (breaks : start.breaking) (clean : '\n' ∉ line)
    (more : List Text) :
    Rereads ctx { start with contents := start.contents ++ more } := by
  have shape := bullet
  cases shape with
  | @bullet indent text mark indents marks =>
  have deeper := indents.append indents_tab
  have isWord : ∀ word ∈ more.flatMap words, IsWord word := isWord_of_mem_contents
  have cleanBelow := unbroken_behind
    ((ctx.wrapBehind (indent ++ ['\t'])).isWord_of_mem_fillWords isWord) deeper
  have written := fun more => compose_below rfl breaks breaks ctx more
  rw [Rereads, steadyItem, if_pos breaks, Bool.not_eq_true']
  rcases rereads_lines sticky deeper isWord with ⟨nested, owns, settles⟩ | ⟨steady, texts⟩
  · refine ⟨[_, _], [_, nested], cons_ne_nil _ _, .cons (.group bullet .nil) (.cons owns .nil),
      ?_, ?_, ?_⟩
    · rw [flatten_cons, flatten_singleton]
      exact forall_mem_cons.mpr ⟨clean, cleanBelow⟩
    · rw [flatten_cons, flatten_singleton, singleton_append, unlines_cons, unlines_behind, written]
      rfl
    · rw [flatMap_cons, flatMap_singleton, written, written, append_assoc]
      exact (settles.behind ['\n']).behind _
  · refine ⟨[_], [_], cons_ne_nil _ _, .cons (.group bullet texts) .nil, ?_, ?_, ?_⟩
    · rw [flatten_singleton]
      exact forall_mem_cons.mpr ⟨clean, cleanBelow⟩
    · rw [flatten_singleton, unlines_cons, unlines_behind, written]
      rfl
    · rw [flatMap_singleton, textLines, map_map]
      exact .of_eq steady (compose_refilled rfl breaks breaks ctx more)

end Items

/-! ## Elements -/

section Elements

variable {ctx : Context} {line : Text} {run : List Text} {item : Item}
  {items : List Item}

theorem Owns.rereads (sticky : ctx.sticky = opensBullet) {item : ListItem} (owns : Owns run item)
    (unbroken : Unbroken run) : Rereads ctx item := by
  cases owns with
  | @group line more start texts bullet owned =>
    by_cases breaks : start.breaking
    · exact rereads_breaking sticky bullet breaks (unbroken line mem_cons_self) _
    · cases bullet with
      | bullet indents marks =>
        exact rereads_plain (eq_false_of_ne_true breaks) rfl sticky indents marks

theorem rereads_items (sticky : ctx.sticky = opensBullet) {groups : List (List Text)}
    {items : List ListItem} (owned : Forall₂ Owns groups items)
    (unbroken : Unbroken groups.flatten) :
    ∃ again others, (groups ≠ [] → again ≠ []) ∧ Forall₂ Owns again others ∧
      Unbroken again.flatten ∧ unlines again.flatten = items.flatMap (ListItem.compose ctx) ∧
      Settles (∀ item ∈ items, steadyItem ctx item)
        (others.flatMap (ListItem.compose ctx)) (items.flatMap (ListItem.compose ctx)) := by
  induction owned with
  | nil => exact ⟨[], [], id, .nil, unbroken, rfl, .of_eq (by simp) rfl⟩
  | @cons group item groups items owns _ ih =>
    obtain ⟨here, later⟩ := forall_mem_append.mp unbroken
    obtain ⟨first, found, someGroup, owns, clean, written, settles⟩ := owns.rereads sticky here
    obtain ⟨again, others, -, owned, cleanLater, writtenLater, settlesLater⟩ := ih later
    refine ⟨first ++ again, found ++ others, fun _ => by simp [someGroup],
      rel_append owns owned, ?_, ?_, ?_⟩
    · rw [flatten_append]
      exact forall_mem_append.mpr ⟨clean, cleanLater⟩
    · rw [flatten_append, unlines_append, written, writtenLater, flatMap_cons]
    · rw [forall_mem_cons, flatMap_append, flatMap_cons]
      exact settles.append settlesLater

/-- What an element may be read as once it is written: its own kind, or bullet items in place of
text. -/
def Turns : Item → Item → Prop
  | .separator _, .separator _ | .listItems _, .listItems _ => True
  | .text _, .text _ | .text _, .listItems _ => True
  | _, _ => False

theorem rereads_text (sticky : ctx.sticky = opensBullet) {texts : List TagLine}
    (someWord : words (joinLines texts) ≠ []) (indents : Indents (leadOf texts)) :
    ∃ lines again, MakesUp lines again ∧ Unbroken lines ∧
      unlines lines = composeItem ctx (.text texts) ∧ Turns (.text texts) again ∧
      Settles (steady ctx (.text texts)) (composeItem ctx again)
        (composeItem ctx (.text texts)) := by
  have written : ∀ {lines : List TagLine}, words (joinLines lines) ≠ [] →
      composeItem ctx (.text lines) = leadLines (leadOf lines)
        (((ctx.wrapBehind (leadOf lines)).fillWords (words (joinLines lines))).map joinWords) :=
    contiguous_nil ctx _
  have isWord := (ctx.wrapBehind (leadOf texts)).isWord_of_mem_lines (joinLines texts)
  have clean := unbroken_behind isWord indents
  have someLine := (ctx.wrapBehind (leadOf texts)).fillWords_ne_nil someWord
  rw [written someWord, steady, Bool.not_eq_true']
  rcases rereads_lines sticky indents (fun _ => isWord_of_mem_words) with
    ⟨nested, owns, settles⟩ | ⟨still, textsOf⟩
  · refine ⟨_, _, .listItems (cons_ne_nil _ []) (.cons owns .nil), ?_, ?_, trivial, ?_⟩
    · rwa [flatten_singleton]
    · rw [flatten_singleton, unlines_behind]
    · rw [composeItem, flatMap_singleton]
      exact settles
  · refine ⟨_, _, .text ?_ textsOf, clean, unlines_behind _ _, trivial, .of_eq still ?_⟩
    · rwa [behind, ne_eq, map_eq_nil_iff]
    · have sameWords := words_textLines isWord (leadOf texts)
      rw [Wrap.flatten_fillWords] at sameWords
      rw [written (by rw [sameWords]; exact someWord), sameWords, leadOf_textLines someLine]

theorem MakesUp.rereads (sticky : ctx.sticky = opensBullet) (made : MakesUp run item)
    (unbroken : Unbroken run) :
    ∃ lines again, MakesUp lines again ∧ Unbroken lines ∧ unlines lines = composeItem ctx item ∧
      Turns item again ∧
      Settles (steady ctx item) (composeItem ctx again) (composeItem ctx item) := by
  cases made with
  | @separator first more blank =>
    refine ⟨[first], _, .separator fun line member => ?_, fun line member => ?_, ?_, trivial,
      .of_eq rfl rfl⟩
    · exact blank line (mem_singleton.mp member ▸ mem_cons_self)
    · exact unbroken line (mem_singleton.mp member ▸ mem_cons_self)
    · rw [unlines_cons, unlines_nil]
      rfl
  | listItems someGroup owned =>
    obtain ⟨again, others, someAgain, owned, clean, written, settles⟩ :=
      rereads_items sticky owned unbroken
    refine ⟨_, _, .listItems (someAgain someGroup) owned, clean, written, trivial, ?_⟩
    rw [steady, all_eq_true]
    exact settles
  | text someLine textsOf =>
    cases textsOf with
    | nil => exact absurd rfl someLine
    | cons text _ =>
      refine rereads_text sticky ?_ ?_
      · rw [words_joinLines, allWords, flatMap_cons]
        exact append_ne_nil_of_left_ne_nil text.words_ne_nil _
      · cases text with
        | text indents solid other => exact indents

/-- Elements that stand apart, or bullet items behind bullet items. -/
def Loosely (first second : Item) : Prop :=
  Apart first second ∨ ∃ items others, first = .listItems items ∧ second = .listItems others

theorem loosely_of_turns {first second again other : Item} (apart : Apart first second)
    (turns : Turns first again) (turnsLater : Turns second other) : Loosely again other := by
  cases first <;> cases again <;> cases turns <;> cases second <;> cases other <;>
    cases turnsLater <;> simp_all [Loosely, Apart]

/-- Neighbouring bullet items are one element, and nothing else is changed in what is written. -/
theorem exists_inRuns {runs : List (List Text)} (made : Forall₂ MakesUp runs items)
    (chain : items.IsChain Loosely) (ctx : Context) :
    ∃ merged, InRuns runs.flatten merged ∧
      merged.flatMap (composeItem ctx) = items.flatMap (composeItem ctx) ∧
      ∀ before, (∀ item ∈ items.head?, Loosely before item) →
        ∀ item ∈ merged.head?, Loosely before item := by
  induction made with
  | nil => exact ⟨[], ⟨[], rfl, .nil, .nil⟩, rfl, fun _ _ => by simp⟩
  | @cons run item runs items first made ih =>
    obtain ⟨head, chain⟩ := isChain_cons.mp chain
    obtain ⟨merged, ⟨others, same, makes, apart⟩, written, begins⟩ := ih chain
    have next := begins item head
    rw [flatten_cons, same]
    by_cases listed : ∃ upper lower later, item = .listItems upper ∧ merged = .listItems lower :: later
    · obtain ⟨upper, lower, later, rfl, rfl⟩ := listed
      obtain ⟨below, further, nextMakes, makesLater, rfl⟩ := forall₂_cons_right_iff.mp makes
      cases first with
      | @listItems groups _ someGroup owned =>
      cases nextMakes with
      | @listItems more _ _ ownedBelow =>
      refine ⟨.listItems (upper ++ lower) :: later, ⟨(groups ++ more).flatten :: further, by simp,
        .cons (.listItems (by simp [someGroup]) (rel_append owned ownedBelow)) makesLater,
        ?_⟩, ?_, fun before meets other found => ?_⟩
      · obtain ⟨apartHead, apart⟩ := isChain_cons.mp apart
        refine isChain_cons.mpr ⟨fun other found => ?_, apart⟩
        have stands := apartHead other found
        cases other <;> exact stands
      · rw [flatMap_cons, flatMap_cons, ← written]
        simp [composeItem]
      · cases found
        have meeting := meets _ rfl
        cases before <;> simp_all [Loosely, Apart]
    · refine ⟨item :: merged, ⟨run :: others, rfl, .cons first makes, ?_⟩, ?_, fun before => id⟩
      · refine isChain_cons.mpr ⟨fun other found => ?_, apart⟩
        rcases next other found with apart | ⟨upper, lower, rfl, rfl⟩
        · exact apart
        · obtain ⟨later, rfl⟩ := List.head?_eq_some_iff.mp found
          exact absurd ⟨upper, lower, later, rfl, rfl⟩ listed
      · rw [flatMap_cons, written, flatMap_cons]

theorem isChain_of_turns {others : List Item} (turns : Forall₂ Turns items others)
    (apart : items.IsChain Apart) : others.IsChain Loosely := by
  induction turns with
  | nil => exact .nil
  | cons first later ih =>
    obtain ⟨head, apart⟩ := isChain_cons.mp apart
    refine isChain_cons.mpr ⟨fun other found => ?_, ih apart⟩
    cases later with
    | nil => cases found
    | cons second _ =>
      cases found
      exact loosely_of_turns (head _ rfl) first second

theorem rereads_elements (sticky : ctx.sticky = opensBullet) {runs : List (List Text)}
    (made : Forall₂ MakesUp runs items) (unbroken : Unbroken runs.flatten) :
    ∃ again others, Unbroken again.flatten ∧
      unlines again.flatten = items.flatMap (composeItem ctx) ∧ Forall₂ MakesUp again others ∧
      Forall₂ Turns items others ∧
      Settles (∀ item ∈ items, steady ctx item) (others.flatMap (composeItem ctx))
        (items.flatMap (composeItem ctx)) := by
  induction made with
  | nil => exact ⟨[], [], unbroken, rfl, .nil, .nil, .of_eq (by simp) rfl⟩
  | cons first _ ih =>
    obtain ⟨here, later⟩ := forall_mem_append.mp unbroken
    obtain ⟨lines, other, makes, clean, written, turns, settles⟩ := first.rereads sticky here
    obtain ⟨again, others, cleanLater, writtenLater, makesLater, turnsLater, settlesLater⟩ :=
      ih later
    refine ⟨lines :: again, other :: others, forall_mem_append.mpr ⟨clean, cleanLater⟩, ?_,
      .cons makes makesLater, .cons turns turnsLater, ?_⟩
    · rw [flatten_cons, unlines_append, written, writtenLater, flatMap_cons]
    · rw [forall_mem_cons, flatMap_cons, flatMap_cons]
      exact settles.append settlesLater

/-- What is written is read again, and is written again as it is exactly if all elements are
steady. -/
theorem InRuns.rereads (sticky : ctx.sticky = opensBullet) {lines : List Text}
    (inRuns : InRuns lines items) (unbroken : Unbroken lines) :
    ∃ again others, Unbroken again ∧ unlines again = items.flatMap (composeItem ctx) ∧
      InRuns again others ∧
      (others.flatMap (composeItem ctx) = items.flatMap (composeItem ctx) ↔
        ∀ item ∈ items, steady ctx item) := by
  obtain ⟨runs, rfl, made, apart⟩ := inRuns
  obtain ⟨again, others, clean, written, makes, turns, settles⟩ :=
    rereads_elements sticky made unbroken
  obtain ⟨merged, inRuns, same, -⟩ := exists_inRuns makes (isChain_of_turns turns apart) ctx
  exact ⟨_, merged, clean, written, inRuns, by rw [same, settles.eq_iff]⟩

end Elements

/-! ## Formatting -/

section Formatting

variable {style : Style} {items : List Item} {lines : List Text}

/-- Whether all elements of some prose are steady. -/
def AllSteady (style : Style) (items : List Item) : Prop :=
  ∀ item ∈ items, steady { style, sticky := opensBullet } item

theorem exists_inRuns_of_parse {text : Text} (parsed : parse text = .ok items) :
    ∃ lines, Unbroken lines ∧ InRuns lines items := by
  obtain ⟨_, lines, unbroken, -, taken⟩ := parse_eq_ok_iff.mp parsed
  exact ⟨lines, unbroken, machine_eq_some_iff.mp (takeAll_eq_iff_machine.mp taken)⟩

section InRuns

variable (inRuns : InRuns lines items) (unbroken : Unbroken lines)

include inRuns unbroken

theorem InRuns.formatLines_compose (small : byteLength (compose style items) ≤ inputLimit) :
    ∃ again, formatLines style (compose style items) .prose = .ok again ∧
      (again = compose style items ↔ AllSteady style items) ∧
      (endsLine (compose style items) → endsLine again) := by
  obtain ⟨lines, others, clean, written, inRuns, settles⟩ :=
    inRuns.rereads (show ({ style, sticky := opensBullet } : Context).sticky = _ from rfl) unbroken
  have parsed : parse (compose style items) = .ok others :=
    parse_eq_ok_iff.mpr ⟨small, lines, clean, written.symm, inRuns.takeAll_eq⟩
  refine ⟨compose style others, ?_, settles, fun ends => endsLine_compose ends parsed⟩
  rw [formatLines, parsed]
  rfl

/-- If prose without its last line break still ends with one, then its last element is an empty
line, and the others are what is left. -/
theorem InRuns.exists_of_loose (loose : endsLine (dropLineBreak (compose style items))) :
    ∃ upper older, InRuns upper older ∧ Unbroken upper ∧
      dropLineBreak (compose style items) = compose style older ∧
      (AllSteady style items ↔ AllSteady style older) := by
  obtain ⟨runs, rfl, made, apart⟩ := inRuns
  obtain rfl | ⟨before, run, rfl⟩ := eq_nil_or_concat' runs
  · cases made
    cases loose
  obtain ⟨older, item, rfl, olderMade, last⟩ := made.exists_of_concat
  rw [flatten_concat] at unbroken
  obtain ⟨cleanOlder, clean⟩ := forall_mem_append.mp unbroken
  rw [compose, flatMap_append, flatMap_singleton] at loose ⊢
  have filled := last.endsFilled clean
  cases last with
  | listItems | text =>
    rw [((filled (by simp) _).append _).dropped] at loose
    cases loose
  | @separator first more blank =>
    rw [composeItem, ← append_assoc, dropLineBreak_concat] at loose ⊢
    cases first with
    | nil =>
      refine ⟨before.flatten, older, ⟨before, rfl, olderMade, apart.left_of_append⟩, cleanOlder,
        append_nil _, ?_⟩
      rw [AllSteady, forall_mem_append]
      exact and_iff_left fun item member => by rw [mem_singleton.mp member, steady]
    | cons c first =>
      rw [endsLine_append (cons_ne_nil _ _) (clean _ mem_cons_self)] at loose
      cases loose

theorem InRuns.format_iff {out : Text}
    (closed : closeLine out = compose style items) (small : byteLength (closeLine out) ≤ inputLimit) :
    format style .prose out = .ok out ↔ AllSteady style items := by
  have ends := endsLine_closeLine out
  rw [closed] at small ends
  obtain ⟨again, formatted, same, endsAgain⟩ := inRuns.formatLines_compose unbroken small
  rw [← closed] at formatted
  rw [format_self_iff formatted (endsAgain ends), closed, same]

theorem InRuns.format_dropLineBreak_iff (ends : endsLine (compose style items))
    (small : byteLength (closeLine (dropLineBreak (compose style items))) ≤ inputLimit) :
    format style .prose (dropLineBreak (compose style items)) =
      .ok (dropLineBreak (compose style items)) ↔ AllSteady style items := by
  cases loose : endsLine (dropLineBreak (compose style items)) with
  | true =>
    obtain ⟨upper, older, inRuns, clean, same, settles⟩ := inRuns.exists_of_loose unbroken loose
    rw [settles]
    exact inRuns.format_iff clean ((if_pos loose).trans same) small
  | false =>
    refine inRuns.format_iff unbroken ?_ small
    rw [closeLine, loose, if_neg Bool.false_ne_true, dropLineBreak_append ends]

end InRuns

end Formatting

/-- Formatted prose is formatted to itself exactly if it is not too large and all elements of the
prose it comes from are steady. Nothing else can change: the blank lines, the leads, the bullets and
the last line break are found again as they are. -/
theorem format_prose_again_iff {style : Style} {text out : Text}
    (formatted : format style .prose text = .ok out) :
    format style .prose out = .ok out ↔
      byteLength (closeLine out) ≤ inputLimit ∧
        ∃ items, parse (closeLine text) = .ok items ∧ AllSteady style items := by
  by_cases small : byteLength (closeLine out) ≤ inputLimit
  · cases ends : endsLine text with
    | true =>
      rw [format, if_pos ends] at formatted
      obtain ⟨items, parsed, rfl⟩ := exists_of_formatLines formatted
      obtain ⟨lines, unbroken, inRuns⟩ := exists_inRuns_of_parse parsed
      have close : closeLine text = text := if_pos ends
      rw [inRuns.format_iff unbroken (if_pos (endsLine_compose ends parsed)) small, close, parsed]
      simp [small]
    | false =>
      obtain ⟨whole, written, rfl⟩ := (format_of_open ends).mp formatted
      obtain ⟨items, parsed, rfl⟩ := exists_of_formatLines written
      obtain ⟨lines, unbroken, inRuns⟩ := exists_inRuns_of_parse parsed
      have close : closeLine text = text ++ ['\n'] := by simp [closeLine, ends]
      rw [inRuns.format_dropLineBreak_iff unbroken (endsLine_compose (endsLine_concat _) parsed)
        small, close, parsed]
      simp [small]
  · rw [(guarded_format style .prose out).large (by omega)]
    simp [small]

theorem format_of_lines (style : Style) (lines : List Text) {items : List Item}
    (small : byteLength (unlines lines) ≤ inputLimit) (unbroken : Unbroken lines)
    (ends : endsLine (unlines lines)) (taken : takeAll element lines = (items, [])) :
    format style .prose (unlines lines) = .ok (compose style items) := by
  rw [format, if_pos ends, formatLines, parse_eq_ok_iff.mpr ⟨small, lines, unbroken, rfl, taken⟩]
  rfl

/-- A line of a lone bullet above two words, not all of which fit in one line. -/
def loneBullet : Text := "-\naaa bbb\n".toList

theorem format_loneBullet : format { width := 5 } .prose loneBullet = .ok "- aaa\nbbb\n".toList := by
  have written := format_of_lines { width := 5 } [['-'], "aaa bbb".toList] (by decide)
    (by unfold Unbroken; decide) (by decide) rfl
  exact written.trans (congrArg Except.ok (by decide +kernel))

/-- Behind the bullet, the same words are written in lines that are written again as they are. -/
theorem fullBullet_again :
    format { width := 5 } .prose "- aaa bbb\n".toList = .ok "- aaa\n\tbbb\n".toList ∧
      format { width := 5 } .prose "- aaa\n\tbbb\n".toList = .ok "- aaa\n\tbbb\n".toList := by
  have unbroken : Unbroken ["- aaa bbb".toList] := by
    unfold Unbroken
    decide
  let item : ListItem :=
    { head := "- aaa bbb".toList, start := ['-', ' '], contents := ["aaa bbb".toList] }
  have taken : takeAll element ["- aaa bbb".toList] = ([.listItems [item]], []) := rfl
  have parsed := parse_eq_ok_iff.mpr ⟨by decide, ["- aaa bbb".toList], unbroken, rfl, taken⟩
  have written := format_of_lines { width := 5 } _ (by decide) unbroken (by decide) taken
  have filled : format { width := 5 } .prose "- aaa bbb\n".toList = .ok "- aaa\n\tbbb\n".toList :=
    written.trans (congrArg Except.ok (by decide +kernel))
  have steady : AllSteady { width := 5 } [.listItems [item]] :=
    forall_mem_singleton.mpr (by decide +kernel)
  exact ⟨filled, (format_prose_again_iff filled).mpr ⟨by decide, _, parsed, steady⟩⟩

/-- Formatting prose twice can differ from formatting it once. -/
theorem loneBullet_drifts :
    ¬∀ (style : Style) (text out : Text), format style .prose text = .ok out →
      byteLength out < inputLimit → format style .prose out = .ok out := by
  intro always
  have again := always { width := 5 } loneBullet _ format_loneBullet (by decide)
  have written := format_of_lines { width := 5 } ["- aaa".toList, "bbb".toList] (by decide)
    (by unfold Unbroken; decide) (by decide) rfl
  have same := Except.ok.inj (again.symm.trans written)
  revert same
  decide +kernel

end Prose

end Document

end Reflow
