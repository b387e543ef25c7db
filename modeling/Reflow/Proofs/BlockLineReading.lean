import Mathlib.Data.List.DropRight
import Reflow.Proofs.BlockLines

/-!
# Reading the lines of a block comment

Each rule of the grammar that reads one line reads exactly the lines of its own kind.
-/

namespace Reflow.Document.Block

open Text Layout Reflow.Expr List Pattern Option
open Reader (whole? readAll whole?_cons whole?_nil)

/-! ## Reading leads -/

/-- The blanks behind a star, as they are read. -/
def gap (blanks : Text) : Part := if blanks.isEmpty then .nil else .text blanks

@[simp] theorem chars_gap (blanks : Text) : (gap blanks).chars = blanks := by
  cases blanks <;> simp [gap]

/-- What the grammar reads as a lead whose blanks are read in a given way. -/
def leadWith (blanks : Expr) : Expr := sequence [regex "[\\t ]*\\*", choice [blanks, atLineEnd]]

variable {line : Text} {γ : Type} {kind : Construct} {look : Part → List γ}
  {value? : Token → Option (List γ)}

section Leads

variable {rule : String → Reader} {blanks : Expr}

theorem stays_leadWith (stays : (blanks.read rule).Stays) : ((leadWith blanks).read rule).Stays := by
  rw [leadWith, read_sequence, readEach_cons, readEach_cons, readEach_nil, read_choice,
    readEach_cons, readEach_cons, readEach_nil]
  refine Reader.Stays.sequence (forall_mem_cons.mpr ⟨stays_star rule, ?_⟩)
  refine forall_mem_singleton.mpr (Reader.Stays.choice ?_)
  exact forall_mem_cons.mpr ⟨stays, forall_mem_singleton.mpr (stays_atLineEnd rule)⟩

theorem read_leadWith {taken left : Text → Text}
    (nothing : taken [] = [] ∧ left [] = []) (reads : ∀ input, blanks.read rule input =
      if input.head?.any isIndent then some (.text (taken input), left input) else none)
    (someBlank : ∀ c rest, isIndent c → taken (c :: rest) ≠ []) (unbroken : '\n' ∉ line) :
    (leadWith blanks).read rule line = (star? line).map fun (front, rest) =>
      (.list [.text front, gap (taken rest)], left rest) := by
  rw [leadWith, star?]
  simp only [read_sequence, readEach_cons, readEach_nil, read_choice, Reader.sequence,
    readAll, Reader.choice, read_star, reads, read_atLineEnd]
  cases stripped : stripFront? ['*'] (line.dropWhile isIndent) with
  | none => rfl
  | some rest =>
    cases rest with
    | nil => simp [nothing, gap]
    | cons c rest =>
      have clean : c ≠ '\n' := by
        rintro rfl
        refine not_mem_dropWhile isIndent unbroken ?_
        rw [stripFront?_eq_some.mp stripped]
        simp
      cases indent : isIndent c with
      | false => simp [indent, clean]
      | true => simp [indent, gap, someBlank c rest indent]

end Leads

theorem readRule_lead (levels : Nat) : readRule rules (levels + 1) "prefix" =
    (leadWith (regex blanks)).read (readRule rules levels) :=
  readRule_of_defined rfl levels

theorem readRule_fixedLead (levels : Nat) : readRule rules (levels + 1) "prefix_fixed" =
    (leadWith (regex "[\\t ]")).read (readRule rules levels) :=
  readRule_of_defined rfl levels

theorem stays_lead (levels : Nat) : (readRule rules (levels + 1) "prefix").Stays := by
  rw [readRule_lead]
  exact stays_leadWith (stays_blanks _)

theorem stays_fixedLead (levels : Nat) : (readRule rules (levels + 1) "prefix_fixed").Stays := by
  rw [readRule_fixedLead]
  exact stays_leadWith (stays_blank _)

/-- A lead takes all the blanks behind the star. -/
theorem read_lead (levels : Nat) (unbroken : '\n' ∉ line) :
    readRule rules (levels + 1) "prefix" line = (star? line).map fun (front, rest) =>
      (.list [.text front, gap (rest.takeWhile isIndent)], rest.dropWhile isIndent) := by
  rw [readRule_lead]
  refine read_leadWith ⟨rfl, rfl⟩ ?_ ?_ unbroken
  · intro input
    rw [read_blanks]
    cases input with
    | nil => rfl
    | cons c rest => cases indent : isIndent c <;> simp [indent]
  · intro c rest indent
    simp [indent]

/-- A fixed lead takes one blank behind the star. -/
theorem read_fixedLead (levels : Nat) (unbroken : '\n' ∉ line) :
    readRule rules (levels + 1) "prefix_fixed" line = (star? line).map fun (front, rest) =>
      (.list [.text front, gap (rest.take 1)], rest.drop 1) := by
  rw [readRule_fixedLead]
  refine read_leadWith ⟨rfl, rfl⟩ ?_ ?_ unbroken
  · intro input
    rw [read_blank]
    cases input with
    | nil => rfl
    | cons c rest => cases indent : isIndent c <;> simp [indent]
  · intro c rest _
    simp

/-! ## Reading lines -/

/-- A line is read as its lead, and then as what stands behind the lead is read. -/
theorem agree_of_lead (levels : Nat) {more : List Expr} {make : List Part → γ} {value : Option γ}
    (unbroken : '\n' ∉ line) (unled : star? line = none → value = none)
    (led : ∀ front rest, star? line = some (front, rest) → '\n' ∉ rest.dropWhile isIndent →
      value = whole? (readEach (readRule rules (levels + 1)) more)
        (fun parts => make (.field "prefix" (.list [.text front, gap (rest.takeWhile isIndent)]) ::
          parts)) (rest.dropWhile isIndent)) :
    value = whole? (readEach (readRule rules (levels + 1)) (lead :: more)) make line := by
  rw [readEach_cons, whole?_cons, lead, read_capture, read_reference, Reader.map,
    read_lead levels unbroken]
  cases star : star? line with
  | none => exact unled star
  | some pair =>
    obtain ⟨front, rest⟩ := pair
    exact led front rest star (not_mem_dropWhile isIndent (unbroken_of_star? star unbroken))

def lineOfPart (part : Part) : TagLine :=
  { lead := part.attrText "prefix"
    argument := part.attrText "parameters"
    contents := part.attrText "contents" }

def pickLine (part : Part) : Option TagLine :=
  if part.label? == some "line" then some (lineOfPart part) else none

/-- A reader of lines takes one token, if its values are those of the tokens of one line. -/
theorem reads_line {reader : Reader}
    (takes : TakesLine reader look fun line => (line? line).bind value?)
    (noCode : ∀ header body close, value? (.code header body close) = none) {tail : Text}
    (last : '\n' ∉ tail) :
    Reads lexer tail reader look (takeOne fun lexeme => value? lexeme.token) := by
  refine Reads.of_lines (takes.reads last) fun lines => ?_
  cases lines with
  | nil => rfl
  | cons line lines =>
    change _ = (lexeme? (line :: lines)).bind _
    rw [takeOne, lexeme?, token?]
    cases fence : fence? line with
    | none => cases line? line <;> rfl
    | some header =>
      rw [line?_of_fence? fence]
      dsimp only [fenced?]
      cases lines.dropWhile isFenced with
      | nil => rfl
      | cons close rest => cases ends : isFenceEnd close <;> simp [ends, noCode]

theorem line?_bind_unled (unled : star? line = none) : (line? line).bind value? = none := by
  rw [line?, unled]
  rfl

def separatorValue? {γ : Type} (make : Text → List γ) : Token → Option (List γ)
  | .separator line => some (make (line ++ ['\n']))
  | _ => none

theorem takes_separatorLine {make : Text → List γ}
    (seen : ∀ part, look part = make part.chars) (levels : Nat) :
    TakesLine (readRule rules (levels + 2) "separator_line") look
      (fun line => (line? line).bind (separatorValue? make)) := by
  have defined : bodyOf? rules "separator_line" =
    some (sequence ([reference "prefix"] ++ [literal "\n"])) := rfl
  rw [readRule_of_defined defined]
  refine TakesLine.of_text ⟨stays_lead levels, trivial⟩ make seen fun line unbroken => ?_
  simp only [readEach_cons, readEach_nil, read_reference, whole?_cons, whole?_nil,
    read_lead levels unbroken, line?]
  cases star : star? line with
  | none => rfl
  | some pair =>
    obtain ⟨front, rest⟩ := pair
    simp only [map_some, bind_some, isEmpty_eq_opening]
    cases opening (rest.dropWhile isIndent) with
    | command kind text => exact header?_bind (fun _ => rfl) _ _
    | _ => rfl

def textValue? {γ : Type} (make : TagLine → γ) : Token → Option (List γ)
  | .text line => some [make line]
  | _ => none

theorem view_line (part : Part) :
    (Part.field "line" part).view pickLine = [lineOfPart (.field "line" part)] := by
  simp [pickLine]

theorem takes_commandLine {make : TagLine → γ}
    (seen : ∀ part, look (.field "line" part) = [make (lineOfPart (.field "line" part))])
    (levels : Nat) :
    TakesLine (readRule rules (levels + 2) "command_line") look
      (fun line => (line? line).bind (textValue? make)) := by
  have defined : bodyOf? rules "command_line" =
    some (capture (sequence ([lead, notAhead (regex tagStart),
      capture (regex nonEmptyRest) "contents"] ++ [literal "\n"])) "line") := rfl
  rw [readRule_of_defined defined]
  refine TakesLine.of_captured ⟨stays_field (stays_lead levels) _, stays_notOpening _,
    stays_field (stays_nonEmptyRest _) _, trivial⟩ seen fun line unbroken => ?_
  refine agree_of_lead levels unbroken line?_bind_unled fun front rest star clean => ?_
  have contents := (takesRest_nonEmptyRest (readRule rules (levels + 1))).alone clean
  simp only [line?, star, readEach_cons, readEach_nil, read_capture, whole?_cons,
    whole?_nil, Reader.map, read_notOpening _ clean, dropWhile_idempotent, opens_eq]
  cases opened : opening (rest.dropWhile isIndent) with
  | command kind text => exact header?_bind (fun _ => rfl) _ _
  | nothing =>
    have noneLeft : (rest.dropWhile isIndent).isEmpty := by
      rw [isEmpty_eq_opening, opened]
      rfl
    simp [Opening.isOpen, textValue?, contents, noneLeft]
  | prose =>
    have someLeft : (rest.dropWhile isIndent).isEmpty = false := by
      rw [isEmpty_eq_opening, opened]
      rfl
    simp [Opening.isOpen, textValue?, contents, someLeft, lineOfPart, Part.attrText]
  | _ => rfl

/-! ## Reading markers -/

structure ReadsMarker (rule : String → Reader) (marker : Expr) (kind : Construct) : Prop where
  stays : (marker.read rule).Stays
  found : ∀ {body text}, opening body = .command kind text →
    ∃ spelled, marker.read rule body = some (.list [.text spelled, .nil], text)
  missing : ∀ {body}, (∀ text, opening body ≠ .command kind text) → marker.read rule body = none

section Markers

variable (rule : String → Reader) {marker : String} {word : Text}

section Spelled

variable (spelled : marker.toList = '@' :: word)

include spelled

theorem stays_command (wordChars : word.all isWordChar) : ((command marker).read rule).Stays := by
  have clean : '\n' ∉ marker.toList := by
    rw [spelled]
    intro member
    rcases mem_cons.mp member with impossible | member
    · cases impossible
    · have inside := all_eq_true.mp wordChars _ member
      cases inside
  rw [command, read_sequence, readEach_cons, readEach_cons, readEach_nil, read_literal]
  refine Reader.Stays.sequence (forall_mem_cons.mpr ⟨Reader.stays_literal clean, ?_⟩)
  exact forall_mem_singleton.mpr (stays_notWord rule)

/-- A word and a check for its end. -/
theorem read_wordThen
    (wordChars : word.all isWordChar) {wordStop : Reader} (check : ∀ input, wordStop input =
      if isWordSide input.head? then none else some (.nil, input)) (text : Text) :
    Reader.sequence [.literal marker, wordStop] ('@' :: text) =
      if text.takeWhile isWordChar = word then
        some (.list [.text marker.toList, .nil], text.dropWhile isWordChar)
      else none := by
  have found := stripFront?_word wordChars text
  have front : stripFront? ('@' :: word) ('@' :: text) = stripFront? word text := by
    simp [stripFront?]
  simp only [Reader.sequence, readAll, Reader.literal, spelled, front, check]
  cases stripped : stripFront? word text with
  | none =>
    rw [stripped, bind_none] at found
    split at found
    · cases found
    · next other => rw [if_neg other]; rfl
  | some rest =>
    rw [stripped, bind_some] at found
    cases side : isWordSide rest.head? with
    | true =>
      simp only [side, if_true] at found
      split at found
      · cases found
      · next other => simp [other, side]
    | false =>
      simp only [side, if_neg Bool.false_ne_true] at found
      split at found
      · next same =>
        cases found
        simp [same, side]
      · cases found

theorem read_command (wordChars : word.all isWordChar) (text : Text) :
    (command marker).read rule ('@' :: text) =
      if text.takeWhile isWordChar = word then
        some (.list [.text marker.toList, .nil], text.dropWhile isWordChar)
      else none := by
  rw [command, read_sequence, readEach_cons, readEach_cons, readEach_nil, read_literal]
  exact read_wordThen spelled wordChars (read_notWord rule) text

theorem read_command_other {body : Text}
    (other : body.head? ≠ some '@') : (command marker).read rule body = none := by
  have front : stripFront? ('@' :: word) body = none := by
    cases body with
    | nil => rfl
    | cons c text =>
      have different : ¬ '@' = c := fun same => other (by rw [same]; rfl)
      simp [stripFront?, different]
  simp only [command, read_sequence, readEach_cons, readEach_nil, read_literal, Reader.sequence,
    readAll, Reader.literal, spelled, front, map_none]

theorem readsMarker_command
    (wordChars : word.all isWordChar) (only : ∀ other, (other, kind) ∈ commands ↔ other = word) :
    ReadsMarker rule (command marker) kind where
  stays := stays_command rule spelled wordChars
  found := by
    intro body text opened
    obtain ⟨rest, rfl, known, rfl⟩ := opening_eq_iff.mp opened
    rw [read_command rule spelled wordChars, if_pos ((only _).mp known)]
    exact ⟨_, rfl⟩
  missing := by
    intro body other
    by_cases atSign : body.head? = some '@'
    · obtain ⟨rest, rfl⟩ := List.head?_eq_some_iff.mp atSign
      rw [read_command rule spelled wordChars, if_neg]
      intro same
      exact other _ (opening_eq_iff.mpr ⟨rest, rfl, (only _).mpr same, rfl⟩)
    · exact read_command_other rule spelled atSign

end Spelled

/-- A result has two markers. -/
theorem readsMarker_returns :
    ReadsMarker rule (choice [command "@returns", command "@return"]) .returns := by
  have longer : "@returns".toList = '@' :: "returns".toList := rfl
  have shorter : "@return".toList = '@' :: "return".toList := rfl
  have longWord : "returns".toList.all isWordChar := by decide
  have shortWord : "return".toList.all isWordChar := by decide
  have listed : ∀ word, (word, Construct.returns) ∈ commands ↔
      word = "returns".toList ∨ word = "return".toList := by
    intro word
    simp [commands]
  constructor
  · rw [read_choice, readEach_cons, readEach_cons, readEach_nil]
    refine Reader.Stays.choice (forall_mem_cons.mpr ⟨stays_command rule longer longWord, ?_⟩)
    exact forall_mem_singleton.mpr (stays_command rule shorter shortWord)
  · intro body text opened
    obtain ⟨rest, rfl, known, rfl⟩ := opening_eq_iff.mp opened
    rw [read_choice, readEach_cons, readEach_cons, readEach_nil, Reader.choice, Reader.choice,
      read_command rule longer longWord, read_command rule shorter shortWord]
    rcases (listed _).mp known with same | same
    · exact ⟨_, by rw [if_pos same]⟩
    · have other : rest.takeWhile isWordChar ≠ "returns".toList := by
        rw [same]
        decide
      exact ⟨_, by rw [if_neg other, if_pos same]⟩
  · intro body other
    rw [read_choice, readEach_cons, readEach_cons, readEach_nil, Reader.choice, Reader.choice]
    by_cases atSign : body.head? = some '@'
    · obtain ⟨rest, rfl⟩ := List.head?_eq_some_iff.mp atSign
      have refused : ¬ ((rest.takeWhile isWordChar) = "returns".toList ∨
          rest.takeWhile isWordChar = "return".toList) := fun known =>
        other _ (opening_eq_iff.mpr ⟨rest, rfl, (listed _).mpr known, rfl⟩)
      rw [not_or] at refused
      rw [read_command rule longer longWord, read_command rule shorter shortWord,
        if_neg refused.1, if_neg refused.2]
      rfl
    · rw [read_command_other rule longer atSign, read_command_other rule shorter atSign]
      rfl

end Markers

/-! ## Reading the lines of markers -/

def headerLine? (kind : Construct) : Token → Option (List TagLine)
  | .header other line => if other = kind then some [line] else none
  | _ => none

theorem line?_bind_header (noFence : kind ≠ .code) {front rest : Text}
    (star : star? line = some (front, rest)) :
    (line? line).bind (headerLine? kind) =
      match opening (rest.dropWhile isIndent) with
      | .command other text =>
        if other = kind then
          (tagLine? kind (front ++ rest.takeWhile isIndent) text).map ([·])
        else none
      | _ => none := by
  rw [line?, star]
  dsimp only
  cases opening (rest.dropWhile isIndent) with
  | command other text =>
    by_cases same : other = kind
    · subst same
      simp only [header?, if_neg noFence, if_true]
      cases tagLine? other (front ++ rest.takeWhile isIndent) text <;> simp [headerLine?]
    · simp only [if_neg same]
      exact header?_bind (fun line => if_neg same) _ _
  | _ => rfl

def argumentOf (kind : Construct) : Option Expr :=
  if takesArgument kind then some (regex expression) else none

def behindMarker (kind : Construct) : List Expr :=
  regex indentation ::
    (argument (argumentOf kind) ++ [capture (regex restOfLine) "contents"])

def headerOfParts (front blanks spelled : Text) (parts : List Part) : TagLine :=
  lineOfPart (.field "line" (.list (.field "prefix" (.list [.text front, gap blanks]) ::
    .list [.text spelled, .nil] :: parts ++ [.text ['\n']])))

theorem stay_behindMarker (rule : String → Reader) (kind : Construct) :
    AllStay rule (behindMarker kind) := by
  have contents := stays_field (stays_restOfLine rule) "contents"
  rw [behindMarker, argumentOf]
  cases takesArgument kind with
  | false => exact ⟨stays_indentation _, contents, trivial⟩
  | true =>
    exact ⟨stays_indentation _, stays_field (stays_expression _) _, stays_indentation _, contents,
      trivial⟩

/-- Behind a marker there is its argument, if it takes one, and a text. -/
theorem readAll_behindMarker (rule : String → Reader) (kind : Construct)
    {front blanks text : Text} (spelled : Text) (unbroken : '\n' ∉ text) :
    (tagLine? kind (front ++ blanks) text).map ([·]) =
      whole? (readEach rule (behindMarker kind))
        (fun parts => [headerOfParts front blanks spelled parts]) text := by
  have clean := not_mem_dropWhile isIndent unbroken
  rw [behindMarker, argumentOf]
  cases takes : takesArgument kind with
  | false =>
    simp [argument, readEach, tagLine?, takes, whole?_cons, whole?_nil, Reader.map,
      read_capture, read_indentation, read_rest_alone rule clean, headerOfParts, lineOfPart,
      Part.attrText]
  | true =>
    have clean := not_mem_dropWhile isIndent (not_mem_dropWhile (!isBlank ·) clean)
    simp only [if_true, argument, cons_append, nil_append, readEach_cons, readEach_nil,
      tagLine?, takes, whole?_cons, whole?_nil, Reader.map, read_capture,
      read_indentation, read_expression, bind_some]
    cases empty : ((text.dropWhile isIndent).takeWhile (!isBlank ·)).isEmpty with
    | true => rfl
    | false =>
      simp [read_rest_alone rule clean, headerOfParts, lineOfPart, Part.attrText]

/-- A line that a marker opens is read as its lead, the marker and what stands behind. -/
theorem takes_header (levels : Nat) {marker : Expr}
    (reads : ReadsMarker (readRule rules (levels + 1)) marker kind) (noFence : kind ≠ .code) :
    TakesLine ((headerLine marker (argumentOf kind)).read (readRule rules (levels + 1)))
      (Part.view pickLine) (fun line => (line? line).bind (headerLine? kind)) := by
  have whole : headerLine marker (argumentOf kind) =
      capture (sequence ((lead :: marker :: behindMarker kind) ++ [literal "\n"])) "line" := by
    simp [headerLine, behindMarker]
  rw [whole]
  refine TakesLine.of_captured ⟨stays_field (stays_lead levels) _, reads.stays,
    stay_behindMarker _ kind⟩ view_line fun line unbroken => ?_
  refine agree_of_lead levels unbroken line?_bind_unled fun front rest star clean => ?_
  rw [line?_bind_header noFence star, readEach_cons, whole?_cons]
  by_cases opened : ∃ text, opening (rest.dropWhile isIndent) = .command kind text
  · obtain ⟨text, opened⟩ := opened
    obtain ⟨spelled, read⟩ := reads.found opened
    simp only [opened, if_true, read]
    exact readAll_behindMarker _ kind spelled (unbroken_of_command opened clean)
  · have other : ∀ text, opening (rest.dropWhile isIndent) ≠ .command kind text :=
      fun text same => opened ⟨text, same⟩
    simp only [reads.missing other, bind_none]
    split
    · next found same => exact if_neg fun equal => other _ (equal ▸ same)
    · rfl

/-! ## Reading rows and links -/

def rowText? : Token → Option Text
  | .row line => some (line ++ ['\n'])
  | _ => none

def linkText? : Token → Option Text
  | .link line => some (line ++ ['\n'])
  | _ => none

def tableRow : Expr :=
  capture (sequence [lead, literal "|", regex restOfLine, literal "\n"]) "line"

theorem takes_row (levels : Nat) :
    TakesLine (tableRow.read (readRule rules (levels + 1))) Part.chars
      (fun line => (line? line).bind rowText?) := by
  have stay : AllStay (readRule rules (levels + 1)) [lead, literal "|", regex restOfLine] :=
    ⟨stays_field (stays_lead levels) _, Reader.stays_literal (by decide), stays_restOfLine _,
      trivial⟩
  refine (TakesLine.of_text stay id (fun _ => rfl) fun line unbroken => ?_).capture
    fun part => by rw [Part.chars, id]
  refine agree_of_lead levels unbroken line?_bind_unled fun front rest star clean => ?_
  have bar : Reader.literal "|" (rest.dropWhile isIndent) =
      (stripFront? ['|'] (rest.dropWhile isIndent)).map fun more => (.text ['|'], more) := rfl
  simp only [line?, star, readEach_cons, readEach_nil, read_literal, whole?_cons,
    whole?_nil, bar]
  cases stripped : stripFront? ['|'] (rest.dropWhile isIndent) with
  | some text =>
    have split := stripFront?_eq_some.mp stripped
    have opened : opening (rest.dropWhile isIndent) = .row := opening_eq_iff.mpr ⟨text, split⟩
    rw [split] at clean
    have cleanText : '\n' ∉ text := fun member => clean (mem_append_right _ member)
    simp [opened, rowText?, read_rest_alone _ cleanText]
  | none =>
    cases opened : opening (rest.dropWhile isIndent) with
    | row =>
      obtain ⟨text, split⟩ := opening_eq_iff.mp opened
      rw [split] at stripped
      cases stripped
    | command kind text => exact header?_bind (fun _ => rfl) _ _
    | _ => rfl

def linkLine : Expr := capture (sequence [lead, regex "\\[.+\\]: .*", literal "\n"]) "line"

theorem takes_link (levels : Nat) :
    TakesLine (linkLine.read (readRule rules (levels + 1))) Part.chars
      (fun line => (line? line).bind linkText?) := by
  have stay : AllStay (readRule rules (levels + 1)) [lead, regex "\\[.+\\]: .*"] :=
    ⟨stays_field (stays_lead levels) _, stays_link _, trivial⟩
  refine (TakesLine.of_text stay id (fun _ => rfl) fun line unbroken => ?_).capture
    fun part => by rw [Part.chars, id]
  refine agree_of_lead levels unbroken line?_bind_unled fun front rest star clean => ?_
  have alone := read_link (readRule rules (levels + 1)) clean atEnd_nil
  rw [append_nil] at alone
  simp only [line?, star, readEach_cons, readEach_nil, whole?_cons, whole?_nil, alone]
  cases linked : isLink (rest.dropWhile isIndent) with
  | true =>
    have opened : opening (rest.dropWhile isIndent) = .link := opening_eq_iff.mpr linked
    simp [opened, linkText?]
  | false =>
    cases opened : opening (rest.dropWhile isIndent) with
    | link =>
      rw [opening_eq_iff.mp opened] at linked
      cases linked
    | command kind text => exact header?_bind (fun _ => rfl) _ _
    | _ => rfl

/-! ## Reading bullets -/

/-- A line of a bullet item. -/
inductive ItemPart where
  | start (item : ListItem)
  | line (contents : Text)

def startOfPart (part : Part) : ListItem :=
  { head := dropEndWhile (· == '\n') part.chars
    lead := part.attrText "prefix"
    indent := part.attrText "indentation"
    start := part.attrText "start"
    contents := [part.attrText "contents"] }

def pickItem (part : Part) : Option ItemPart :=
  match part.label? with
  | some "start_line" => some (.start (startOfPart part))
  | some _ => some (.line (part.attrText "contents"))
  | none => none

def startValue? (test : ListItem → Bool) : Token → Option (List ItemPart)
  | .bullet item => if test item then some [.start { item with breaking := false }] else none
  | _ => none

theorem view_startLine (part : Part) :
    (Part.field "start_line" part).view pickItem =
      [.start (startOfPart (.field "start_line" part))] := by
  simp [pickItem]

theorem view_itemLine (part : Part) :
    (Part.field "line" part).view pickItem = [.line (lineOfPart (.field "line" part)).contents] := by
  simp [pickItem, lineOfPart]

theorem dropEndWhile_unbroken (unbroken : '\n' ∉ line) :
    dropEndWhile (· == '\n') (line ++ ['\n']) = line := by
  induction line with
  | nil => rfl
  | cons c line ih =>
    have other : c ≠ '\n' := fun same => unbroken (same ▸ mem_cons_self)
    rw [cons_append, dropEndWhile, ih fun member => unbroken (mem_cons_of_mem _ member)]
    cases line with
    | nil => simp [other]
    | cons d line => rfl

/-- A pattern reads the texts of the items that pass a test. -/
structure ReadsItems (rule : String → Reader) (pattern : String)
    (left? : Text → Option Text) (test : ListItem → Bool) : Prop where
  stays : ((regex pattern).read rule).Stays
  reads : ∀ {text}, '\n' ∉ text → (regex pattern).read rule text =
    (left? text).map fun left => (.text (text.take (text.length - left.length)), left)
  tests : ∀ {item text}, item.contents = [text] → item.breaking = (lastBreak? text == some []) →
    test item = (left? text == some [])

theorem readsItems_breaking (rule : String → Reader) :
    ReadsItems rule ".*<br>" lastBreak? (·.breaking) where
  stays := stays_lineBreak rule
  reads := fun clean => by simpa using read_lineBreak rule clean atEnd_nil
  tests := fun _ breaks => breaks

theorem readsItems_plain (rule : String → Reader) :
    ReadsItems rule restOfLine (fun _ => some []) (fun _ => true) where
  stays := stays_restOfLine rule
  reads := fun {text} clean => by
    rw [read_rest_alone rule clean, map_some, length_nil, Nat.sub_zero, take_length]
  tests := fun _ _ => rfl

/-- What the grammars read as the first line of an item, behind its lead. -/
def itemParts (pattern : String) : List Expr :=
  [capture (regex indentation) "indentation", capture (regex bullet) "start",
    capture (regex pattern) "contents"]

section Bullets

variable {rule : String → Reader} {pattern : String} {left? : Text → Option Text}
  {test : ListItem → Bool}

theorem ReadsItems.stay (items : ReadsItems rule pattern left? test) :
    AllStay rule (itemParts pattern) :=
  ⟨stays_field (stays_indentation _) _, stays_field (stays_bullet _) _, stays_field items.stays _,
    trivial⟩

theorem ReadsItems.readAll (items : ReadsItems rule pattern left? test) {text : Text}
    (clean : '\n' ∉ text) :
    Reader.readAll (readEach rule (itemParts pattern)) text =
      (bullet? (text.dropWhile isIndent)).bind fun (mark, body) => (left? body).map fun left =>
        ([.field "indentation" (.text (text.takeWhile isIndent)), .field "start" (.text [mark, ' ']),
          .field "contents" (.text (body.take (body.length - left.length)))], left) := by
  have cleanBody := not_mem_dropWhile isIndent clean
  simp only [itemParts, readEach_cons, readEach_nil, read_capture, Reader.readAll, Reader.map,
    read_indentation, read_bullet, map_some]
  cases found : bullet? (text.dropWhile isIndent) with
  | none => rfl
  | some pair =>
    obtain ⟨mark, body⟩ := pair
    rw [(bullet?_eq_some_iff.mp found).1] at cleanBody
    have cleanText : '\n' ∉ body := fun member =>
      cleanBody (mem_cons_of_mem _ (mem_cons_of_mem _ member))
    simp only [map_some, items.reads cleanText, bind_some]
    cases left? body <;> rfl

/-- The first lines of bullet items are read as a lead, blanks, a bullet and a text. -/
theorem takes_listStart {levels : Nat}
    (items : ReadsItems (readRule rules (levels + 1)) pattern left? test) :
    TakesLine ((listStart pattern).read (readRule rules (levels + 1))) (Part.view pickItem)
      (fun line => (line? line).bind (startValue? test)) := by
  have stay : AllStay (readRule rules (levels + 1)) (fixedLead :: itemParts pattern) :=
    ⟨stays_field (stays_fixedLead levels) _, items.stay⟩
  have refused : ∀ body, (∀ mark text, opening body ≠ .bullet mark text) → bullet? body = none :=
    fun body other => eq_none_iff_forall_ne_some.mpr fun (mark, text) found =>
      other mark text (opening_eq_iff.mpr (bullet?_eq_some_iff.mp found))
  refine TakesLine.of_captured stay view_startLine fun line unbroken => ?_
  simp only [readEach_cons, fixedLead, read_capture, read_reference, whole?_cons, Reader.map,
    read_fixedLead levels unbroken, line?]
  cases star : star? line with
  | none => rfl
  | some pair =>
    obtain ⟨front, rest⟩ := pair
    have clean : '\n' ∉ rest.drop 1 := fun member =>
      unbroken_of_star? star unbroken (mem_of_mem_drop member)
    simp only [map_some, bind_some, whole?, items.readAll clean,
      dropWhile_drop_of_star? star]
    cases opened : opening (rest.dropWhile isIndent) with
    | bullet mark text =>
      have found := bullet?_eq_some_iff.mpr (opening_eq_iff.mp opened)
      simp only [found, bind_some, startValue?]
      rw [items.tests rfl rfl]
      cases left? text with
      | none => rfl
      | some left =>
        cases left with
        | cons c left => rfl
        | nil =>
          have inner : (rest.drop 1).takeWhile isIndent ++ mark :: ' ' :: text =
              rest.drop 1 := by
            rw [← (opening_eq_iff.mp opened).1, ← dropWhile_drop_of_star? star,
              takeWhile_append_dropWhile]
          have whole : front ++ (rest.take 1 ++ ((rest.drop 1).takeWhile isIndent ++
              mark :: ' ' :: text)) = line := by
            rw [inner, take_append_drop, ← star?_split star]
          have head : front ++ (rest.take 1 ++ ((rest.drop 1).takeWhile isIndent ++
              mark :: ' ' :: (text ++ ['\n']))) = line ++ ['\n'] := by
            rw [← whole]
            simp
          rw [drop_one] at head
          simp [startOfPart, Part.attrText, head, dropEndWhile_unbroken unbroken]
    | command kind text =>
      rw [refused _ (by rw [opened]; rintro _ _ ⟨⟩)]
      exact header?_bind (fun _ => rfl) _ _
    | _ =>
      rw [refused _ (by rw [opened]; rintro _ _ ⟨⟩)]
      rfl

end Bullets

end Reflow.Document.Block
