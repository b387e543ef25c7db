import Reflow.Document.Prose
import Reflow.Proofs.BlockTree

/-!
# Reading prose

Every line of prose is told by itself: it is blank, it begins a bullet item, or it is a text. `parse`
accepts a text exactly if it falls into such lines, and takes its elements off their front
(`parse_eq_ok_iff`).
-/

namespace Reflow.Document.Prose

open Text Layout Reflow.Expr List Pattern Part
open Block (ItemPart pickItem startOfPart itemOfParts itemOfPart view_startLine
  dropEndWhile_unbroken view_breakingItem view_plainItem itemOfTree_treeAt
  ReadsItems itemParts readsItems_breaking readsItems_plain reads_listItem reads_listItems)

/-! ## Lines -/

inductive Line where
  | blank
  /-- The first line of a bullet item. -/
  | bullet (item : ListItem)
  | text (line : TagLine)
  deriving DecidableEq, Repr

/-- What a line of prose is. A line that begins with other white space than tabs and spaces is
none. -/
def line? (line : Text) : Option Line :=
  match line.dropWhile isIndent with
  | [] => some .blank
  | c :: rest =>
    if startsBullet (c :: rest) then
      some (.bullet
        { breaking := lastBreak? (rest.drop 1) == some []
          head := line
          indent := line.takeWhile isIndent
          start := [c, ' ']
          contents := [rest.drop 1] })
    else if isBlank c then none
    else some (.text { lead := line.takeWhile isIndent, contents := c :: rest })

/-- What a line is, told by its kind. -/
def Line.Of (line : Text) : Line → Prop
  | .blank => line.dropWhile isIndent = []
  | .bullet item => ∃ mark text, line.dropWhile isIndent = mark :: ' ' :: text ∧
      item =
        { breaking := lastBreak? text == some []
          head := line
          indent := line.takeWhile isIndent
          start := [mark, ' ']
          contents := [text] }
  | .text value =>
    value = { lead := line.takeWhile isIndent, contents := line.dropWhile isIndent }

variable {line : Text} {left? : Text → Option Text}

theorem Line.of_line? {kind : Line} (found : line? line = some kind) : kind.Of line := by
  unfold line? at found
  split at found
  · next empty =>
    cases found
    exact empty
  · next c rest body =>
    split at found
    · next bullet =>
      cases found
      unfold startsBullet at bullet
      split at bullet
      · next same =>
        cases same
        exact ⟨_, _, body, rfl⟩
      · cases bullet
    · split at found
      · cases found
      · cases found
        exact congrArg _ body.symm

theorem line?_eq_blank_iff : line? line = some .blank ↔ line.dropWhile isIndent = [] := by
  refine ⟨Line.of_line?, fun empty => ?_⟩
  rw [line?, empty]

def blankText? (line : Text) : Option Text :=
  if line? line = some .blank then some (line ++ ['\n']) else none

def textValue? {γ : Type} (make : TagLine → γ) (line : Text) : Option (List γ) :=
  match line? line with
  | some (.text line) => some [make line]
  | _ => none

def startValue? (test : ListItem → Bool) (line : Text) : Option (List ItemPart) :=
  match line? line with
  | some (.bullet item) => if test item then some [.start { item with breaking := false }] else none
  | _ => none

/-! ## Patterns -/

theorem compiled_blankLine :
    Compiled blankLine (.seq (.star true (.set indentClass)) (.ofChars ['\n'])) :=
  Regex.anchored?_of_term rfl

theorem compiled_solidLine : Compiled "\\S.*" solidLine :=
  Regex.anchored?_of_term rfl

section Patterns

variable (rule : String → Reader)

theorem read_blankLine (input : Text) :
    (regex blankLine).read rule input =
      (stripFront? ['\n'] (input.dropWhile isIndent)).map fun rest =>
        (.text (input.takeWhile isIndent ++ ['\n']), rest) :=
  read_indented_chars rule compiled_blankLine rfl rfl input

theorem read_solidLine (input : Text) :
    (regex "\\S.*").read rule input =
      if input.head?.any (!isBlank ·) then
        some (.text (input.takeWhile (· != '\n')), input.dropWhile (· != '\n'))
      else none :=
  read_upToBreak rule compiled_solidLine rfl (head?_ends_solidLine none input)

theorem takesRest_solidLine : ((regex "\\S.*").read rule).TakesRest (·.head?.any (!isBlank ·)) := by
  intro line after unbroken ends
  rw [read_solidLine, takeWhile_rest unbroken ends, dropWhile_rest unbroken ends]
  cases line with
  | cons c line => rfl
  | nil =>
    rcases ends.eq_nil_or_cons with rfl | ⟨rest, rfl⟩ <;> rfl

theorem stays_solidLine : ((regex "\\S.*").read rule).Stays :=
  (takesRest_solidLine rule).stays (splits_regex rule _)

theorem isSome_read_bullet (input : Text) :
    ((regex bullet).read rule input).isSome = startsBullet input := by
  rw [read_bullet, Option.isSome_map, isSome_bullet?]

theorem read_notBullet (input : Text) :
    (notAhead (regex bullet)).read rule input =
      if startsBullet input then none else some (.nil, input) := by
  rw [notAhead, read_lookahead, Reader.lookahead, isSome_read_bullet]
  cases startsBullet input <;> rfl

theorem stays_notBullet : ((notAhead (regex bullet)).read rule).Stays := by
  rw [notAhead, read_lookahead]
  refine Reader.stays_lookahead false fun {line} rest unbroken => ?_
  rw [(stays_bullet rule).within rest unbroken, Option.isSome_map]

end Patterns

/-! ## Reading lines -/

/-- Behind its indentation a line without a line break begins with none. -/
theorem stripFront?_newline {rest : Text} {c : Char} (unbroken : '\n' ∉ line)
    (body : line.dropWhile isIndent = c :: rest) (after : Text) :
    stripFront? ['\n'] (c :: after) = none := by
  have other : ¬ '\n' = c := by
    rintro rfl
    refine not_mem_dropWhile isIndent unbroken ?_
    rw [body]
    exact mem_cons_self
  simp [stripFront?, other]

theorem takes_blankLine (rule : String → Reader) :
    TakesLine ((regex blankLine).read rule) chars blankText? where
  line := by
    intro line rest unbroken
    rw [read_blankLine, dropWhile_line isIndent rfl, takeWhile_line isIndent rfl, blankText?]
    cases body : line.dropWhile isIndent with
    | nil =>
      have whole : line.takeWhile isIndent ++ line.dropWhile isIndent = line :=
        takeWhile_append_dropWhile
      rw [body, append_nil] at whole
      rw [if_pos (line?_eq_blank_iff.mpr body), whole]
      simp [stripFront?]
    | cons c text =>
      have refused : line? line ≠ some .blank := fun found => by
        rw [line?_eq_blank_iff.mp found] at body
        cases body
      rw [if_neg refused, cons_append, stripFront?_newline unbroken body]
      rfl
  stop := by
    intro tail unbroken
    rw [read_blankLine]
    cases body : tail.dropWhile isIndent with
    | nil => rfl
    | cons c text => rw [stripFront?_newline unbroken body, Option.map_none]

def lineOfPart (part : Part) : TagLine :=
  { lead := part.attrText "prefix", contents := part.attrText "contents" }

section Lines

variable (levels : Nat)

def textLine : Expr :=
  capture
    (sequence
      [capture (regex indentation) "prefix", notAhead (regex bullet),
        capture (regex "\\S.*") "contents", literal "\n"])
    "line"

theorem readRule_textLine : readRule rules (levels + 1) "text_line" =
    textLine.read (readRule rules levels) :=
  readRule_of_defined rfl levels

theorem takes_textLine {γ : Type} {look : Part → List γ} {make : TagLine → γ}
    (seen : ∀ part, look (.field "line" part) = [make (lineOfPart (.field "line" part))]) :
    TakesLine (readRule rules (levels + 1) "text_line") look (textValue? make) := by
  have stay : AllStay (readRule rules levels) [capture (regex indentation) "prefix",
      notAhead (regex bullet), capture (regex "\\S.*") "contents"] :=
    ⟨stays_field (stays_indentation _) _, stays_notBullet _, stays_field (stays_solidLine _) _,
      trivial⟩
  rw [readRule_textLine]
  refine TakesLine.of_captured stay seen fun line unbroken => ?_
  have clean := not_mem_dropWhile isIndent unbroken
  have contents := (takesRest_solidLine (readRule rules levels)).alone clean
  simp only [textValue?, line?, readEach_cons, readEach_nil, read_capture, Reader.whole?_cons,
    Reader.whole?_nil, Reader.map, read_indentation, read_notBullet, Option.map_some,
    Option.bind_some]
  cases body : line.dropWhile isIndent with
  | nil =>
    rw [body] at contents
    simp [startsBullet, contents]
  | cons c rest =>
    rw [body] at contents
    cases bullet : startsBullet (c :: rest) with
    | true => simp [bullet]
    | false =>
      cases blank : isBlank c with
      | true => simp [bullet, contents, blank]
      | false =>
        simp [bullet, contents, blank, lineOfPart, attrText]

/-- The first lines of bullet items are read as blanks, a bullet and a text. -/
theorem takes_listStart {rule : String → Reader} {pattern : String} {test : ListItem → Bool}
    (items : ReadsItems rule pattern left? test) :
    TakesLine ((listStart pattern).read rule) (view pickItem) (startValue? test) := by
  refine TakesLine.of_captured items.stay view_startLine fun line unbroken => ?_
  have whole : line.takeWhile isIndent ++ line.dropWhile isIndent = line :=
    takeWhile_append_dropWhile
  rw [startValue?, line?, Reader.whole?, items.readAll unbroken]
  cases body : line.dropWhile isIndent with
  | nil => rfl
  | cons c rest =>
    cases found : bullet? (c :: rest) with
    | none =>
      have other : startsBullet (c :: rest) = false := by
        rw [← isSome_bullet?, found]
        rfl
      cases blank : isBlank c <;> simp [other, blank]
    | some pair =>
      obtain ⟨mark, text⟩ := pair
      obtain ⟨same, bulletKind⟩ := bullet?_eq_some_iff.mp found
      cases same
      rw [body] at whole
      simp only [startsBullet, bulletKind, if_true, drop_one, tail_cons, Option.bind_some]
      rw [items.tests rfl rfl]
      cases left? text with
      | none => rfl
      | some left =>
        cases left with
        | cons c left => rfl
        | nil =>
          have head : line.takeWhile isIndent ++ c :: ' ' :: (text ++ ['\n']) =
              line ++ ['\n'] := by
            rw [← cons_append, ← cons_append, ← append_assoc, whole]
          simp [startOfPart, attrText, head, dropEndWhile_unbroken unbroken]

end Lines

/-! ## Elements -/

def bulletItem (breaking : Bool) (test : ListItem → Bool) : Taking Text ListItem :=
  takeText .lines (fun parts _ => [itemOfParts breaking parts])
    (takeEach [takeOne (startValue? test), takeMany (takeOne (textValue? fun line =>
      .line line.contents))])

/-- Takes an item: one that breaks after its first line if there is one. -/
def anyBulletItem : Taking Text ListItem :=
  takeFirst [bulletItem true (·.breaking), bulletItem false fun _ => true]

def separatorItem : Taking Text Item :=
  takeText .lines (fun _ text => [.separator (firstLine text)]) (takeSome (takeOne blankText?))

def listItem : Taking Text Item :=
  takeText .lines (fun items _ => [.listItems items]) (takeSome anyBulletItem)

def textItem : Taking Text Item :=
  takeText .lines (fun lines _ => [.text lines]) (takeSome (takeOne (textValue? id)))

def element : Taking Text Item := takeFirst [separatorItem, listItem, textItem]

theorem shortens_bulletItem (breaking : Bool) (test : ListItem → Bool) :
    (bulletItem breaking test).Shortens :=
  ((shortens_takeOne _).both (shortens_takeOne _).any_takeMany).takeText

theorem shortens_anyBulletItem : anyBulletItem.Shortens :=
  (shortens_bulletItem _ _).or ((shortens_bulletItem _ _).or Taking.gives_nothing)

theorem shortens_element : element.Shortens :=
  (shortens_takeOne _).takeSome.takeText.or (shortens_anyBulletItem.takeSome.takeText.or
    ((shortens_takeOne _).takeSome.takeText.or Taking.gives_nothing))

def itemOfPart? (part : Part) : Option Item :=
  match part.label? with
  | some "separator" => some (.separator (firstLine part.chars))
  | some "list_items" => some (.listItems (part.captures.map itemOfPart))
  | some "text" => some (.text (part.captures.map lineOfPart))
  | _ => none

section Elements

variable {levels : Nat} {tail : Text} (last : '\n' ∉ tail)

include last

theorem reads_textLine {γ : Type} {look : Part → List γ} {make : TagLine → γ}
    (seen : ∀ part, look (.field "line" part) = [make (lineOfPart (.field "line" part))]) :
    Reads .lines tail (readRule rules (levels + 1) "text_line") look
      (takeOne (textValue? make)) :=
  (takes_textLine levels seen).reads last

theorem reads_bulletItem {name pattern : String} {breaking : Bool} {test : ListItem → Bool}
    (defined : bodyOf? rules name =
      some (sequence [listStart pattern, many (reference "text_line")]))
    (items : ReadsItems (readRule rules (levels + 1)) pattern left? test)
    (seen : ∀ part, (field name part).view (some ∘ itemOfPart) =
      [itemOfParts breaking (part.view pickItem)]) :
    Reads .lines tail ((readRule rules (levels + 2) name).map (.field name))
      (view (some ∘ itemOfPart)) (bulletItem breaking test) :=
  reads_listItem defined ((takes_listStart items).reads last)
    ((reads_textLine last Block.view_itemLine).many (splits_readRule rules _ _) (shortens_takeOne _)
      (joins_view _)) seen

theorem reads_bulletItems :
    Reads .lines tail (readRule rules (levels + 3) "list_items") (view (some ∘ itemOfPart))
      (takeSome anyBulletItem) :=
  reads_listItems rfl (reads_bulletItem last rfl (readsItems_breaking _) view_breakingItem)
    (reads_bulletItem last rfl (readsItems_plain _) view_plainItem) shortens_anyBulletItem

theorem reads_separator :
    Reads .lines tail (readRule rules (levels + 1) "separator") chars
      (takeSome (takeOne blankText?)) := by
  have defined : bodyOf? rules "separator" = some (many1 (regex blankLine)) := rfl
  rw [readRule_of_defined defined, many1, read_repetition]
  exact ((takes_blankLine _).reads last).many1 (splits_regex _ _) (shortens_takeOne _)
    joins_chars

theorem reads_text :
    Reads .lines tail (readRule rules (levels + 2) "text") (view (some ∘ lineOfPart))
      (takeSome (takeOne (textValue? id))) := by
  have defined : bodyOf? rules "text" = some (many1 (reference "text_line")) := rfl
  have seen : ∀ part, (field "line" part).view (some ∘ lineOfPart) =
      [id (lineOfPart (.field "line" part))] := fun part => by simp
  rw [readRule_of_defined defined, many1, read_repetition, read_reference]
  exact (reads_textLine last seen).many1 (splits_readRule rules _ _) (shortens_takeOne _)
    (joins_view _)

end Elements

def elementExpr : Expr :=
  choice [capture (reference "separator") "separator", capture (reference "list_items") "list_items",
    capture (reference "text") "text"]

theorem view_separator (part : Part) : (field "separator" part).view itemOfPart? =
    [.separator (firstLine part.chars)] := by
  simp [itemOfPart?]

theorem view_listItems (part : Part) : (field "list_items" part).view itemOfPart? =
    [.listItems (part.view (some ∘ itemOfPart))] := by
  simp [itemOfPart?, captures, view]

theorem view_text (part : Part) : (field "text" part).view itemOfPart? =
    [.text (part.view (some ∘ lineOfPart))] := by
  simp [itemOfPart?, captures, view]

theorem reads_element {levels : Nat} {tail : Text} (last : '\n' ∉ tail) :
    Reads .lines tail (elementExpr.read (readRule rules (levels + 3))) (view itemOfPart?)
      element := by
  have splits := splits_readRule rules (levels + 3)
  simp only [elementExpr, read_choice, readEach_cons, readEach_nil, read_capture, read_reference]
  apply Reads.or ((reads_separator last).capture (splits "separator") view_separator)
  apply Reads.or ((reads_bulletItems last).capture (splits "list_items") view_listItems)
  exact Reads.or ((reads_text last).capture (splits "text") view_text) Reads.nothing

/-! ## Documents -/

theorem readRule_root (levels : Nat) : readRule rules (levels + 4) "paragraphs" =
    (elementExpr.read (readRule rules (levels + 3))).repetition 0 none := by
  have defined : bodyOf? rules "paragraphs" = some (many elementExpr) := rfl
  rw [readRule_of_defined defined, many, read_repetition]

section Documents

variable {text : Text} {items : List Item}

theorem lineOfTree_treeAt (part : Part) (offset : Nat) (stands : StandsAt part.chars text offset) :
    lineOfTree text (part.treeAt offset) = lineOfPart part := by
  rw [lineOfTree, lineOfPart, attrText_treeAt _ stands, attrText_treeAt _ stands]

theorem item?_treeAt (part : Part) (offset : Nat) (stands : StandsAt part.chars text offset) :
    item? text (part.treeAt offset) = itemOfPart? part := by
  rw [item?, label?_treeAt, textIn_treeAt stands,
    map_captures lineOfTree_treeAt stands, map_captures itemOfTree_treeAt stands]
  rfl

theorem compiles : PatternsCompile rules := by
  have patterns : rules.flatMap (·.2.patterns) =
    [blankLine, indentation, bullet, "\\S.*", indentation,
      bullet, ".*<br>", indentation, bullet, restOfLine] := rfl
  have known : ∀ pattern ∈ rules.flatMap (·.2.patterns),
      (Regex.anchored? pattern).isSome := by
    simp [patterns, compiled_blankLine, compiled_indentation, compiled_bullet, compiled_solidLine,
      compiled_lineBreak, compiled_restOfLine]
  exact fun rule member pattern used => known pattern (mem_flatMap.mpr ⟨rule, member, used⟩)

theorem build_rules : ∃ built, Grammar.build rules = .ok built :=
  Grammar.exists_of_build (by decide +kernel)

/-- A text is read as prose exactly if it falls into lines that are taken to elements. -/
theorem parse_eq_ok_iff : parse text = .ok items ↔
    byteLength text ≤ inputLimit ∧ ∃ lines, Unbroken lines ∧ text = unlines lines ∧
      takeAll element lines = (items, []) := by
  obtain ⟨built, same⟩ := build_rules
  have closed : (reference "paragraphs").closedWithin rules 4 := by decide
  exact readWith_elements same compiles rfl closed (by decide) rfl shortens_element reads_element
    item?_treeAt

end Documents

end Reflow.Document.Prose
