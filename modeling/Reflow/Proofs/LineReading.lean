import Reflow.Document.LineComment
import Reflow.Proofs.WithinLine

/-!
# Line comments line by line

Every line of a line comment is classified on its own: behind its lead there is nothing, or there is
text. `line?` is the classifier and `group` collects runs of lines of one kind. Reading a line
comment with its grammar is classifying its lines and grouping them (`parse_eq_ok_iff`).
-/

namespace Reflow.Document.LineComment

open Text Layout Reflow.Expr List Regex Pattern

/-! ## Leads -/

/-- The comment punctuation at the front of a text, as much of it as there is, and the rest. -/
def mark? : Text → Option (Text × Text)
  | '/' :: '/' :: text =>
    match text.dropWhile (· == '/') with
    | '!' :: rest => some ('/' :: '/' :: (text.takeWhile (· == '/') ++ ['!']), rest)
    | rest => some ('/' :: '/' :: text.takeWhile (· == '/'), rest)
  | '#' :: text => some ('#' :: text.takeWhile (· == '#'), text.dropWhile (· == '#'))
  | _ => none

/-- The lead at the front of a text, and the rest: tabs and spaces, the punctuation, and one space
unless a word or the end of the line follows. -/
def lead? (text : Text) : Option (Text × Text) :=
  match mark? (text.dropWhile isIndent) with
  | none => none
  | some (mark, rest) =>
    let front := text.takeWhile isIndent ++ mark
    match rest with
    | [] => some (front, [])
    | c :: body =>
      if c = ' ' then some (front ++ [' '], body)
      else if isWordChar c || c == '\n' then some (front, c :: body)
      else none

inductive Line where
  | separator (line : Text)
  | text (line : TagLine)

/-- What a line is, given without its line break. -/
def line? (line : Text) : Option Line :=
  match lead? line with
  | none => none
  | some (lead, body) =>
    if body.all isIndent then some (.separator line)
    else if startsText body then some (.text { lead, contents := body })
    else none

/-- Puts a line before elements; it joins the first of them if that one is of its kind. -/
def consLine : Line → List Item → List Item
  | .separator line, .separator _ :: items => .separator (line ++ ['\n']) :: items
  | .separator line, items => .separator (line ++ ['\n']) :: items
  | .text line, .paragraph lines :: items => .paragraph (line :: lines) :: items
  | .text line, items => .paragraph [line] :: items

/-- The elements that lines make up: runs of lines of one kind, and of a run without text the first
line. -/
def group (lines : List Line) : List Item := lines.foldr consLine []

/-! ## Reading a lead -/

variable {rest input lead line : Text} {lines : List Text}

theorem mark?_split {text mark : Text} (found : mark? text = some (mark, rest)) :
    text = mark ++ rest := by
  unfold mark? at found
  split at found
  · next text =>
    have whole : text.takeWhile (· == '/') ++ text.dropWhile (· == '/') = text :=
      takeWhile_append_dropWhile
    split at found
    · next rest' tail =>
      cases found
      rw [tail] at whole
      rw [cons_append, cons_append, append_assoc, singleton_append, whole]
    · cases found
      simp [whole]
  · cases found
    simp [takeWhile_append_dropWhile]
  · cases found

def markRegex : Regex :=
  .alt
    (.seq (.set (.range '/' '/')) (.seq (.plus true (.set (.range '/' '/')))
      (.alt (.seq (.set (.range '!' '!')) .empty) .empty)))
    (.plus true (.set (.range '#' '#')))

theorem compiled_mark : Compiled "//+!?|#+" markRegex :=
  anchored?_of_term (by decide +kernel)

theorem test_char (d : Char) : (CharClass.range d d).test = (· == d) := by
  funext c
  exact CharClass.test_single c d

theorem bars_char {d : Char} {text : Text} (other : ∀ c ∈ text.head?, c ≠ d) :
    Regex.Bars (.range d d) text := by
  intro c found
  rw [test_char]
  exact beq_false_of_ne (other c found)

/-- The slashes of a mark go as far as there are slashes, and take an exclamation mark with them. -/
theorem behind?_slashes (text : Text) :
    markRegex.behind? ('/' :: '/' :: text) =
      match text.dropWhile (· == '/') with
      | '!' :: rest => some rest
      | rest => some rest := by
  have slash : (CharClass.range '/' '/').test '/' := rfl
  obtain ⟨_, later, _⟩ := ends_plus_set slash (some '/') text
  rw [behind?, markRegex, ends, ends, ends_set_of_test slash,
    flatMap_singleton, ends, later, flatMap_cons, ends_optional_set,
    siteBehind, test_char]
  dsimp only
  split
  · next rest tail =>
    rw [tail, ends_set_of_test rfl]
    rfl
  · next other =>
    rw [ends_set_of_bars]
    · rfl
    · refine bars_char fun c found same => ?_
      subst same
      cases body : text.dropWhile (· == '/') with
      | nil => rw [body] at found; cases found
      | cons d rest =>
        rw [body] at found
        cases found
        exact other rest body

/-- Without two slashes in front, only a run of hash signs is a mark. -/
theorem ends_mark_of_no_slashes (other : ∀ text, input ≠ '/' :: '/' :: text) :
    markRegex.ends ⟨none, input⟩ = (plus true (.set (.range '#' '#'))).ends ⟨none, input⟩ := by
  rw [markRegex, ends, ends]
  cases input with
  | nil => rfl
  | cons c rest =>
    by_cases slash : c = '/'
    · subst slash
      rw [ends_set_of_test rfl, flatMap_singleton, ends, ends_plus_of_bars, flatMap_nil, nil_append]
      refine bars_char fun d found same => ?_
      subst same
      cases rest with
      | nil => cases found
      | cons e rest =>
        cases found
        exact other rest rfl
    · rw [ends_set_of_bars, flatMap_nil, nil_append]
      refine bars_char fun d found => ?_
      cases found
      exact slash

theorem behind?_mark (input : Text) :
    markRegex.behind? input = (mark? input).map (·.2) := by
  unfold mark?
  split
  · next text =>
    rw [behind?_slashes]
    split <;> rfl
  · next text =>
    have hash : (CharClass.range '#' '#').test '#' := rfl
    obtain ⟨_, later, _⟩ := ends_plus_set hash none text
    rw [behind?, ends_mark_of_no_slashes (by simp), later]
    simp [siteBehind, test_char]
  · next slashes hashes =>
    rw [behind?, ends_mark_of_no_slashes slashes, ends_plus_of_bars]
    · rfl
    · refine bars_char fun c found same => ?_
      subst same
      cases input with
      | nil => cases found
      | cons d rest =>
        cases found
        exact hashes rest rfl

theorem read_mark (rule : String → Reader) (input : Text) :
    (regex "//+!?|#+").read rule input = (mark? input).map fun (mark, rest) => (.text mark, rest) := by
  rw [read_regex compiled_mark rfl, behind?_mark]
  cases found : mark? input with
  | none => rfl
  | some pair =>
    obtain ⟨mark, rest⟩ := pair
    simp only [Option.map_some, take_sub_length (mark?_split found)]

def gap : Expr := choice [literal " ", lookahead (regex "\\w") true, atLineEnd]

theorem read_gap (rule : String → Reader) (input : Text) :
    gap.read rule input =
      match input with
      | [] => some (.nil, [])
      | c :: body =>
        if c = ' ' then some (.text [' '], body)
        else if isWordChar c || c == '\n' then some (.nil, c :: body)
        else none := by
  rw [gap, read_choice, readEach_cons, readEach_cons, readEach_cons, readEach_nil, Reader.choice,
    Reader.choice, Reader.choice, Reader.choice, read_wordAhead, read_atLineEnd, read_literal]
  cases input with
  | nil => rfl
  | cons c body =>
    by_cases space : c = ' '
    · subst space
      rfl
    · have blank : Reader.literal " " (c :: body) = none := by
        simp [Reader.literal, stripFront?, Ne.symm space]
      simp only [blank, if_neg space]
      cases word : isWordChar c with
      | true => simp [word]
      | false => cases line : c == '\n' <;> simp [word, line]

theorem read_lead (levels : Nat) (input : Text) :
    (readRule rules (levels + 1) "prefix" input).map (fun (part, rest) => (part.chars, rest)) =
      lead? input := by
  have defined : bodyOf? rules "prefix" = some (sequence
      [regex indentation, capture (regex "//+!?|#+") "punctuation", gap]) := rfl
  rw [readRule, defined, lead?]
  simp only [read_sequence, readEach_cons, readEach_nil, read_capture, Reader.sequence,
    Reader.readAll, read_indentation, Reader.map, read_mark]
  cases found : mark? (input.dropWhile isIndent) with
  | none => rfl
  | some pair =>
    obtain ⟨mark, rest⟩ := pair
    simp only [Option.map_some, read_gap]
    cases rest with
    | nil => simp
    | cons c body =>
      by_cases space : c = ' '
      · simp [space]
      · cases follows : isWordChar c || c == '\n' <;>
          simp [space, follows]

theorem exists_of_lead? (levels : Nat) (found : lead? input = some (lead, rest)) :
    ∃ part, readRule rules (levels + 1) "prefix" input = some (part, rest) ∧ part.chars = lead := by
  rw [← read_lead levels] at found
  obtain ⟨⟨part, stop⟩, read, same⟩ := Option.map_eq_some_iff.mp found
  cases same
  exact ⟨part, read, rfl⟩

theorem read_lead_eq_none (levels : Nat) (found : lead? input = none) :
    readRule rules (levels + 1) "prefix" input = none := by
  rw [← read_lead levels] at found
  exact Option.map_eq_none_iff.mp found

theorem lead?_split {text : Text} (found : lead? text = some (lead, rest)) :
    text = lead ++ rest := by
  obtain ⟨part, read, rfl⟩ := exists_of_lead? 0 found
  exact (splits_readRule rules 1 "prefix").split read

/-! ## Reading a line -/

theorem mark?_eq_none {text : Text} (slashes : ∀ body, text ≠ '/' :: '/' :: body)
    (hashes : ∀ body, text ≠ '#' :: body) : mark? text = none := by
  unfold mark?
  split
  · next body => exact absurd rfl (slashes body)
  · next body => exact absurd rfl (hashes body)
  · rfl

theorem mark?_line (text rest : Text) :
    mark? (text ++ '\n' :: rest) =
      (mark? text).map fun (mark, body) => (mark, body ++ '\n' :: rest) := by
  by_cases slashes : ∃ body, text = '/' :: '/' :: body
  · obtain ⟨body, rfl⟩ := slashes
    simp only [cons_append, mark?, takeWhile_line (· == '/') rfl, dropWhile_line (· == '/') rfl]
    cases body.dropWhile (· == '/') with
    | nil => rfl
    | cons d tail =>
      by_cases bang : d = '!'
      · subst bang
        rfl
      · simp [bang]
  · by_cases hashes : ∃ body, text = '#' :: body
    · obtain ⟨body, rfl⟩ := hashes
      simp [mark?, takeWhile_line (· == '#') rfl, dropWhile_line (· == '#') rfl]
    · simp only [not_exists] at slashes hashes
      rw [mark?_eq_none slashes hashes, mark?_eq_none, Option.map_none]
      · intro body same
        match text with
        | [] => cases same
        | [c] => cases same
        | c :: d :: text =>
          cases same
          exact slashes text rfl
      · intro body same
        match text with
        | [] => cases same
        | c :: text =>
          cases same
          exact hashes text rfl

theorem stays_mark (rule : String → Reader) : ((regex "//+!?|#+").read rule).Stays where
  splits := splits_regex rule _
  within := by
    intro line rest _
    rw [read_mark, read_mark, mark?_line]
    cases mark? line <;> rfl

theorem stays_gap (levels : Nat) : (gap.read (readRule rules levels)).Stays where
  splits := splits_read (splits_readRule rules levels) gap
  within := by
    intro line rest _
    rw [read_gap, read_gap]
    cases line with
    | nil => rfl
    | cons c body =>
      by_cases space : c = ' '
      · simp [space]
      · cases follows : isWordChar c || c == '\n' <;> simp [space, follows]

theorem stays_lead (levels : Nat) : (readRule rules (levels + 1) "prefix").Stays := by
  have stay : AllStay (readRule rules levels)
      [regex indentation, capture (regex "//+!?|#+") "punctuation", gap] :=
    ⟨stays_indentation _, stays_field (stays_mark _) _, stays_gap levels, trivial⟩
  have defined : bodyOf? rules "prefix" = some (sequence
      [regex indentation, capture (regex "//+!?|#+") "punctuation", gap]) := rfl
  rw [readRule_of_defined defined]
  exact .sequence stay.each

theorem takesRest_contents (rule : String → Reader) :
    ((regex "[\\t ]*\\S.*").read rule).TakesRest startsText := by
  intro line after unbroken ends
  have starts : startsText (line ++ after) = startsText line := by
    rw [startsText, startsText, dropWhile_atEnd rfl line ends]
    cases line.dropWhile isIndent with
    | cons c rest => rfl
    | nil =>
      rcases ends.eq_nil_or_cons with rfl | ⟨rest, rfl⟩ <;> rfl
  rw [read_contents, starts, takeWhile_rest unbroken ends, dropWhile_rest unbroken ends]

theorem not_mem_of_lead? {body : Text} (found : lead? line = some (lead, body))
    (unbroken : '\n' ∉ line) : '\n' ∉ body := by
  rw [lead?_split found] at unbroken
  exact fun member => unbroken (mem_append_right _ member)

def Line.separator? : Line → Option Text
  | separator line => some (line ++ ['\n'])
  | text _ => none

def Line.text? : Line → Option (List TagLine)
  | separator _ => none
  | text line => some [line]

def separatorLine : Expr := sequence [reference "prefix", regex indentation, literal "\n"]

theorem takes_separatorLine (levels : Nat) :
    TakesLine (separatorLine.read (readRule rules (levels + 1))) Part.chars
      (fun line => (line? line).bind Line.separator?) := by
  have stay : AllStay (readRule rules (levels + 1))
      [reference "prefix", regex indentation] :=
    ⟨stays_lead levels, stays_indentation _, trivial⟩
  refine TakesLine.of_text stay id (fun _ => rfl) fun line _ => ?_
  simp only [readEach_cons, readEach_nil, read_reference, Reader.whole?_cons, Reader.whole?_nil,
    read_indentation, line?]
  cases found : lead? line with
  | none =>
    rw [read_lead_eq_none levels found]
    rfl
  | some pair =>
    obtain ⟨front, body⟩ := pair
    obtain ⟨part, read, _⟩ := exists_of_lead? levels found
    simp only [read, all_eq_isEmpty_dropWhile, Option.bind_some]
    cases (body.dropWhile isIndent).isEmpty with
    | true => rfl
    | false => cases startsText body <;> rfl

def textLine : Expr :=
  capture (sequence
    [capture (reference "prefix") "prefix", capture (regex "[\\t ]*\\S.*") "contents", literal "\n"])
    "line"

def lineOfPart (part : Part) : TagLine :=
  { lead := part.attrText "prefix", contents := part.attrText "contents" }

theorem takes_textLine (levels : Nat) :
    TakesLine (readRule rules (levels + 2) "line") (Part.view (some ∘ lineOfPart))
      (fun line => (line? line).bind Line.text?) := by
  have stay : AllStay (readRule rules (levels + 1)) [capture (reference "prefix") "prefix",
      capture (regex "[\\t ]*\\S.*") "contents"] :=
    ⟨stays_field (stays_lead levels) _,
      stays_field ((takesRest_contents _).stays (splits_regex _ _)) _, trivial⟩
  have seen : ∀ part, (Part.field "line" part).view (some ∘ lineOfPart) =
      [lineOfPart (.field "line" part)] := fun part => by simp
  have defined : bodyOf? rules "line" = some textLine := rfl
  rw [readRule_of_defined defined]
  refine TakesLine.of_captured stay seen fun line unbroken => ?_
  simp only [readEach_cons, readEach_nil, read_capture, read_reference, Reader.whole?_cons,
    Reader.whole?_nil, Reader.map, line?]
  cases found : lead? line with
  | none =>
    rw [read_lead_eq_none levels found]
    rfl
  | some pair =>
    obtain ⟨front, body⟩ := pair
    obtain ⟨part, read, chars⟩ := exists_of_lead? levels found
    simp only [read, (takesRest_contents _).alone (not_mem_of_lead? found unbroken),
      Option.map_some, Option.bind_some]
    cases starts : startsText body with
    | false => cases body.all isIndent <;> rfl
    | true =>
      have someText : body.all isIndent = false := by
        rw [← Bool.not_eq_true, all_eq_isEmpty_dropWhile, List.isEmpty_iff]
        intro noneLeft
        rw [startsText, noneLeft] at starts
        cases starts
      simp [someText, Line.text?, lineOfPart, Part.attrText, chars]

/-! ## Runs of lines -/

def Line.isSeparator : Line → Bool
  | separator _ => true
  | text _ => false

theorem group_cons (line : Line) (lines : List Line) :
    group (line :: lines) = consLine line (group lines) := rfl

/-- The first element is of the kind of the first line. -/
theorem group_head (line : Line) (lines : List Line) :
    ∃ items, (∃ first, group (line :: lines) = .separator first :: items ∧
        line.isSeparator) ∨
      ∃ first, group (line :: lines) = .paragraph first :: items ∧ line.isSeparator = false := by
  rw [group_cons]
  unfold consLine
  split
  · exact ⟨_, .inl ⟨_, rfl, rfl⟩⟩
  · exact ⟨_, .inl ⟨_, rfl, rfl⟩⟩
  · exact ⟨_, .inr ⟨_, rfl, rfl⟩⟩
  · exact ⟨_, .inr ⟨_, rfl, rfl⟩⟩

/-- Of a run of lines without text, the first one is kept. -/
theorem group_separators (first : Text) (run : List Text) {behind : List Line}
    (ends : ∀ line ∈ behind.head?, line.isSeparator = false) :
    group ((first :: run).map .separator ++ behind) =
      .separator (first ++ ['\n']) :: group behind := by
  induction run generalizing first with
  | nil =>
    rw [map_singleton, singleton_append, group_cons]
    cases behind with
    | nil => rfl
    | cons line lines =>
      obtain ⟨items, ⟨_, _, impossible⟩ | ⟨found, same, _⟩⟩ := group_head line lines
      · rw [ends line rfl] at impossible
        cases impossible
      · rw [same]
        rfl
  | cons second run ih =>
    rw [map_cons, cons_append, group_cons, ih second]
    rfl

/-- A run of lines with text is a paragraph. -/
theorem group_texts (first : TagLine) (run : List TagLine) {behind : List Line}
    (ends : ∀ line ∈ behind.head?, line.isSeparator) :
    group ((first :: run).map .text ++ behind) = .paragraph (first :: run) :: group behind := by
  induction run generalizing first with
  | nil =>
    rw [map_singleton, singleton_append, group_cons]
    cases behind with
    | nil => rfl
    | cons line lines =>
      obtain ⟨items, ⟨found, same, _⟩ | ⟨_, _, impossible⟩⟩ := group_head line lines
      · rw [same]
        rfl
      · rw [ends line rfl] at impossible
        cases impossible
  | cons second run ih =>
    rw [map_cons, cons_append, group_cons, ih second]
    rfl

/-! ## Elements -/

def itemOfPart? (part : Part) : Option Item :=
  match part.label? with
  | some "separator" => some (.separator (firstLine part.chars))
  | some "text" => some (.paragraph (part.captures.map lineOfPart))
  | _ => none

def element : Expr :=
  choice [capture (reference "separator") "separator", capture (reference "text") "text"]

def separatorItem : Taking Text Item :=
  takeText .lines (fun _ text => [.separator (firstLine text)])
    (takeSome (takeOne fun line => (line? line).bind Line.separator?))

def paragraphItem : Taking Text Item :=
  takeText .lines (fun lines _ => [.paragraph lines])
    (takeSome (takeOne fun line => (line? line).bind Line.text?))

def takeElement : Taking Text Item := takeFirst [separatorItem, paragraphItem]

theorem shortens_takeElement : takeElement.Shortens :=
  (shortens_takeOne _).takeSome.takeText.or
    ((shortens_takeOne _).takeSome.takeText.or Taking.gives_nothing)

theorem view_separator (part : Part) : (Part.field "separator" part).view itemOfPart? =
    [.separator (firstLine part.chars)] := by
  simp [itemOfPart?]

theorem view_text (part : Part) : (Part.field "text" part).view itemOfPart? =
    [.paragraph (part.view (some ∘ lineOfPart))] := by
  simp [itemOfPart?, Part.captures, Part.view]

theorem reads_element (levels : Nat) {tail : Text} (last : '\n' ∉ tail) :
    Reads .lines tail (element.read (readRule rules (levels + 3))) (Part.view itemOfPart?)
      takeElement := by
  have splits := splits_readRule rules
  have blanks : bodyOf? rules "separator" = some (many1 separatorLine) := rfl
  have texts : bodyOf? rules "text" = some (many1 (reference "line")) := rfl
  have separators := ((takes_separatorLine (levels + 1)).reads last).many1
    (splits_read (splits _) _) (shortens_takeOne _) Part.joins_chars
  have paragraphs := ((takes_textLine levels).reads last).many1 (splits _ _) (shortens_takeOne _)
    (Part.joins_view _)
  rw [← read_repetition, ← many1, ← readRule_of_defined blanks] at separators
  rw [← read_reference (readRule rules (levels + 2)), ← read_repetition, ← many1,
    ← readRule_of_defined texts] at paragraphs
  simp only [element, read_choice, readEach_cons, readEach_nil, read_capture, read_reference]
  exact Reads.or (separators.capture (splits _ _) view_separator)
    (Reads.or (paragraphs.capture (splits _ _) view_text) Reads.nothing)

theorem line?_of_separator? {text : Text} (found : (line? line).bind Line.separator? = some text) :
    line? line = some (.separator line) := by
  unfold line? at found ⊢
  split at found
  · cases found
  · split at found
    · next all => rw [if_pos all]
    · split at found <;> cases found

theorem line?_of_text? {lines : List TagLine} (found : (line? line).bind Line.text? = some lines) :
    ∃ text, line? line = some (.text text) ∧ lines = [text] := by
  obtain ⟨kind, same, value⟩ := Option.bind_eq_some_iff.mp found
  cases kind with
  | separator line => cases value
  | text text => exact ⟨text, same, (Option.some.inj value).symm⟩

/-- A class that the first line does not have is not the first class. -/
theorem head_refused {δ : Type} {value? : Line → Option δ} {kinds : List Line} {kind : Line}
    (known : lines.map line? = kinds.map some) (first : kind ∈ kinds.head?)
    (stops : ∀ line ∈ lines.head?, (line? line).bind value? = none) : value? kind = none := by
  cases kinds with
  | nil => cases first
  | cons other kinds =>
    cases first
    cases lines with
    | nil => cases known
    | cons line lines => exact ((List.cons.inj known).1 ▸ stops line rfl :)

theorem map_line?_of_texts (each : ∀ line ∈ lines, ((line? line).bind Line.text?).isSome) :
    lines.map line? =
      ((lines.flatMap fun line => ((line? line).bind Line.text?).getD []).map .text).map some := by
  induction lines with
  | nil => rfl
  | cons line lines ih =>
    obtain ⟨texts, value⟩ := Option.isSome_iff_exists.mp (each line mem_cons_self)
    obtain ⟨text, same, rfl⟩ := line?_of_text? value
    rw [map_cons, flatMap_cons, value, same, ih (forall_mem_cons.mp each).2]
    rfl

/-- An element is made of lines of one kind, and no line of that kind stands behind it. -/
theorem group_of_takeElement {rest : List Text} {values : List Item}
    (unbroken : Unbroken lines) (found : takeElement lines = some (values, rest)) :
    ∃ front kinds, lines = front ++ rest ∧ front.map line? = kinds.map some ∧
      ∀ behind, rest.map line? = behind.map some →
        group (kinds ++ behind) = values ++ group behind := by
  rw [takeElement, takeFirst, takeFirst, takeFirst] at found
  cases separators : separatorItem lines with
  | some pair =>
    rw [separators] at found
    obtain rfl := Option.some.inj found
    obtain ⟨first, more, rfl, each, rfl, stops⟩ := exists_of_takeText_takeSome separators
    refine ⟨first :: more, (first :: more).map .separator, rfl, ?_, fun behind known => ?_⟩
    · rw [map_map]
      refine map_congr_left fun line member => ?_
      obtain ⟨text, value⟩ := Option.isSome_iff_exists.mp (each line member)
      exact line?_of_separator? value
    · rw [firstLine_source more (unbroken first mem_cons_self)]
      refine group_separators first more fun kind head => ?_
      have refused := head_refused known head stops
      cases kind with
      | separator line => cases refused
      | text line => rfl
  | none =>
    rw [separators] at found
    cases texts : paragraphItem lines with
    | none => rw [texts] at found; cases found
    | some pair =>
      rw [texts] at found
      obtain rfl := Option.some.inj found
      obtain ⟨first, more, rfl, each, rfl, stops⟩ := exists_of_takeText_takeSome texts
      refine ⟨first :: more, _, rfl, map_line?_of_texts each, fun behind known => ?_⟩
      obtain ⟨_, value⟩ := Option.isSome_iff_exists.mp (each first mem_cons_self)
      obtain ⟨text, _, rfl⟩ := line?_of_text? value
      rw [flatMap_cons, value]
      refine group_texts text _ fun kind head => ?_
      have refused := head_refused known head stops
      cases kind with
      | separator line => rfl
      | text line => cases refused

theorem takeElement_ne_none {kind : Line} (known : line? line = some kind)
    (lines : List Text) : takeElement (line :: lines) ≠ none := by
  cases kind <;> simp [takeElement, takeFirst, separatorItem, paragraphItem, takeText, takeSome,
    takeOne, known, Line.separator?, Line.text?]

/-- Lines that are taken to elements are classified, and the elements are their runs. -/
theorem group_of_runs {rest : List Text} {items : List Item}
    (runs : Runs takeElement lines items rest) (all : rest = []) (unbroken : Unbroken lines) :
    ∃ kinds, lines.map line? = kinds.map some ∧ items = group kinds := by
  induction runs with
  | stop _ => exact ⟨[], by rw [all]; rfl, rfl⟩
  | again taken _ ih =>
    obtain ⟨front, kinds, rfl, known, grouped⟩ := group_of_takeElement unbroken taken
    obtain ⟨behind, later, rfl⟩ := ih all fun line member =>
      unbroken line (mem_append_right _ member)
    exact ⟨kinds ++ behind, by rw [map_append, known, later, map_append],
      (grouped behind later).symm⟩

/-- All lines are taken exactly if each of them is a line of a comment. -/
theorem takeAll_takeElement (unbroken : Unbroken lines) {items : List Item} :
    takeAll takeElement lines = (items, []) ↔
      ∃ kinds, lines.map line? = kinds.map some ∧ items = group kinds := by
  have runs := shortens_takeElement.runs_takeAll lines
  constructor
  · intro taken
    rw [taken] at runs
    exact group_of_runs runs rfl unbroken
  · rintro ⟨kinds, known, rfl⟩
    have all : (takeAll takeElement lines).2 = [] := by
      cases left : (takeAll takeElement lines).2 with
      | nil => rfl
      | cons line rest =>
        obtain ⟨front, split⟩ := shortens_takeElement.exists_taken runs
        have member : line? line ∈ kinds.map some := by
          rw [← known, split, left]
          exact mem_map_of_mem (by simp)
        obtain ⟨kind, _, same⟩ := mem_map.mp member
        have refused := runs.refused
        rw [left] at refused
        exact absurd refused (takeElement_ne_none same.symm rest)
    obtain ⟨others, same, grouped⟩ := group_of_runs runs all unbroken
    rw [known] at same
    rw [map_injective_iff.mpr (fun _ _ => Option.some.inj) same, ← grouped, ← all]

/-! ## Documents -/

section Documents

variable {text : Text} {items : List Item}

theorem lineOfTree_treeAt (part : Part) (offset : Nat) (stands : StandsAt part.chars text offset) :
    lineOfTree text (part.treeAt offset) = lineOfPart part := by
  rw [lineOfTree, lineOfPart, Part.attrText_treeAt _ stands, Part.attrText_treeAt _ stands]

theorem item?_treeAt (part : Part) (offset : Nat) (stands : StandsAt part.chars text offset) :
    item? text (part.treeAt offset) = itemOfPart? part := by
  rw [item?, Part.label?_treeAt, Part.textIn_treeAt stands,
    Part.map_captures lineOfTree_treeAt stands]
  rfl

theorem compiles : PatternsCompile rules := by
  have patterns : rules.flatMap (·.2.patterns) = [Pattern.indentation, "//+!?|#+", "\\w", "(?s).",
    Pattern.indentation, "[\\t ]*\\S.*"] := rfl
  have known : ∀ pattern ∈ rules.flatMap (·.2.patterns),
      (anchored? pattern).isSome := by
    simp [patterns, compiled_indentation, compiled_mark, compiled_word, compiled_any,
      compiled_contents]
  exact fun rule member pattern used => known pattern (mem_flatMap.mpr ⟨rule, member, used⟩)

theorem readRule_root (levels : Nat) : readRule rules (levels + 4) "line_comment" =
    .repetition (element.read (readRule rules (levels + 3))) 0 none := by
  have defined : bodyOf? rules "line_comment" = some (many element) := rfl
  rw [readRule, defined]
  simp only [many, read_repetition]

theorem build_rules : ∃ built, Grammar.build rules = .ok built :=
  Grammar.exists_of_build (by decide +kernel)

theorem parse_eq_ok_iff : parse text = .ok items ↔
    byteLength text ≤ inputLimit ∧ ∃ lines kinds, Unbroken lines ∧ text = unlines lines ∧
      lines.map line? = kinds.map some ∧ items = group kinds := by
  obtain ⟨built, same⟩ := build_rules
  have closed : (reference "line_comment").closedWithin rules 4 := by decide
  rw [parse, grammar, readWith_elements same compiles rfl closed (by decide) rfl
    shortens_takeElement (reads_element 0) item?_treeAt]
  refine and_congr_right fun _ => exists_congr fun lines => ?_
  simp only [exists_and_left]
  exact and_congr_right fun unbroken => and_congr_right fun _ => takeAll_takeElement unbroken

end Documents

end Reflow.Document.LineComment
