import Reflow.Proofs.BlockLineReading

/-!
# Reading the paragraphs of a block comment

What each rule of the grammar takes off the tokens of a body. Fenced code is one token; every other
paragraph is a header or a first line and the lines of prose behind it, or a run of lines of one
kind.
-/

namespace Reflow.Document.Block

open Text Layout Reflow.Expr List Option Pattern
open Reads (cons nil or capture)
open Part (view joins_view)

/-! ## Fenced code -/

inductive CodePart where
  | header (line : TagLine)
  | line (contents : Option Text)
  | close (text : Text)
  deriving DecidableEq, Repr

def pickCode (part : Part) : Option CodePart :=
  match part.label? with
  | some "line" => some (.header (lineOfPart part))
  | some "code_line" => some (.line (some (part.attrText "contents")))
  | some "blank" => some (.line none)
  | some "end" => some (.close part.chars)
  | _ => none

def codeParts? : Token → Option (List CodePart)
  | .code header body close => some (.header header :: body.map .line ++ [.close close])
  | _ => none

def fenceLine : Expr :=
  capture
    (sequence
      [lead, command "@code", regex indentation,
        capture (optional (regex "\\\x7b.+?\\\x7d")) "parameters", regex indentation,
        literal "\n"])
    "line"

def fenceEndLine : Expr :=
  capture (sequence [lead, literal "@endcode", regex indentation, lineEnd]) "end"

theorem readsMarker_code (rule : String → Reader) : ReadsMarker rule (command "@code") .code := by
  have spelled : "@code".toList = '@' :: "code".toList := rfl
  refine readsMarker_command rule spelled (by decide) fun other => ?_
  simp [commands]

theorem view_fenceLine (part : Part) :
    (Part.field "line" part).view pickCode = [.header (lineOfPart (.field "line" part))] := by
  simp [pickCode]

theorem view_codeLine (part : Part) :
    (Part.field "code_line" part).view pickCode =
      [.line (some ((Part.field "code_line" part).attrText "contents"))] := by
  simp [pickCode]

theorem view_blank (part : Part) : (Part.field "blank" part).view pickCode = [.line none] := by
  simp [pickCode]

theorem fence?_eq {line front rest : Text} (star : star? line = some (front, rest)) :
    fence? line = match opening (rest.dropWhile isIndent) with
      | .command .code text =>
        (fenceHint? text).map fun hint =>
          { lead := front ++ rest.takeWhile isIndent, argument := hint }
      | _ => none := by
  rewrite [fence?, star]
  rfl

section Fences

variable (levels : Nat)

theorem takes_fence :
    TakesLine (fenceLine.read (readRule rules (levels + 1))) (view pickCode)
      (fun line => (fence? line).map fun header => [.header header]) := by
  have marker := readsMarker_code (readRule rules (levels + 1))
  have stay : AllStay (readRule rules (levels + 1)) [lead, command "@code",
      regex indentation, capture (optional (regex "\\\x7b.+?\\\x7d")) "parameters",
      regex indentation] :=
    ⟨stays_field (stays_lead levels) _, marker.stays, stays_indentation _,
      stays_field (stays_optionalHint _) _, stays_indentation _, trivial⟩
  refine TakesLine.of_captured stay view_fenceLine fun line unbroken => ?_
  refine agree_of_lead levels unbroken (fun unled => by rw [fence?, unled]; rfl)
    fun front rest star _ => ?_
  rw [fence?_eq star, readEach_cons, Reader.whole?_cons]
  by_cases opened : ∃ text, opening (rest.dropWhile isIndent) = .command .code text
  · obtain ⟨text, opened⟩ := opened
    obtain ⟨spelled, read⟩ := marker.found opened
    simp only [opened, read, readEach_cons, readEach_nil, read_capture, Reader.whole?_cons,
      Reader.whole?_nil, Reader.map, read_indentation, read_optionalHint, fenceHint?,
      bind_some]
    cases hint? (text.dropWhile isIndent) with
    | none =>
      simp only [map_some, bind_some, dropWhile_idempotent]
      cases text.dropWhile isIndent with
      | nil =>
        simp [lineOfPart, Part.attrText]
      | cons c more => rfl
    | some pair =>
      obtain ⟨taken, left⟩ := pair
      simp only [map_some, bind_some]
      cases left.dropWhile isIndent with
      | nil =>
        simp [lineOfPart, Part.attrText]
      | cons c more => rfl
  · have other : ∀ text, opening (rest.dropWhile isIndent) ≠ .command .code text :=
      fun text same => opened ⟨text, same⟩
    simp only [marker.missing other, bind_none]
    rfl

def codeText? (line : Text) : Option (List CodePart) :=
  match star? line with
  | none => none
  | some (_, rest) =>
    let contents := rest.drop 1
    if (stripFront? "@endcode".toList (contents.dropWhile isIndent)).isSome then none
    else if contents.isEmpty then none
    else some [.line (some contents)]

theorem read_notEndcode (rule : String → Reader) (input : Text) :
    (notAhead (regex "[\\t ]*@endcode")).read rule input =
      if (stripFront? "@endcode".toList (input.dropWhile isIndent)).isSome then none
      else some (.nil, input) := by
  rw [notAhead, read_lookahead, Reader.lookahead, isSome_read_endcode]
  cases (stripFront? "@endcode".toList (input.dropWhile isIndent)).isSome <;> rfl

theorem takes_codeLine :
    TakesLine (readRule rules (levels + 2) "code_line") (view pickCode) codeText? := by
  have defined : bodyOf? rules "code_line" =
    some (capture (sequence ([fixedLead, notAhead (regex "[\\t ]*@endcode"),
      capture (regex nonEmptyRest) "contents"] ++ [literal "\n"])) "code_line") := rfl
  rw [readRule_of_defined defined]
  refine TakesLine.of_captured ⟨stays_field (stays_fixedLead levels) _, stays_notEndcode _,
    stays_field (stays_nonEmptyRest _) _, trivial⟩ view_codeLine fun line unbroken => ?_
  simp only [readEach_cons, readEach_nil, fixedLead, read_capture, read_reference, read_notEndcode,
    Reader.whole?_cons, Reader.whole?_nil, Reader.map, read_fixedLead levels unbroken, codeText?]
  cases star : star? line with
  | none => rfl
  | some pair =>
    obtain ⟨front, rest⟩ := pair
    have clean : '\n' ∉ rest.drop 1 := fun member =>
      unbroken_of_star? star unbroken (mem_of_mem_drop member)
    have contents := (takesRest_nonEmptyRest (readRule rules (levels + 1))).alone clean
    simp only [map_some, bind_some]
    cases (stripFront? "@endcode".toList ((rest.drop 1).dropWhile isIndent)).isSome with
    | true => rfl
    | false =>
      simp only [if_neg Bool.false_ne_true, bind_some, contents]
      cases rest.drop 1 with
      | nil => rfl
      | cons c text =>
        simp [Part.attrText]

def fencedLine : Expr :=
  choice [reference "code_line", capture (reference "separator_line") "blank"]

/-- A line between fences has a text or is a separator. -/
theorem fencedLine?_eq (line : Text) :
    ((fencedLine? line).map fun contents => [CodePart.line contents]) =
      (codeText? line).or ((line? line).bind (separatorValue? fun _ => [.line none])) := by
  rw [fencedLine?, codeText?, line?]
  cases star : star? line with
  | none => rfl
  | some pair =>
    obtain ⟨front, rest⟩ := pair
    have same := dropWhile_drop_of_star? star
    dsimp only
    cases text : rest.drop 1 with
    | nil =>
      rw [text] at same
      rw [← same]
      rfl
    | cons c more =>
      have someText : (rest.drop 1).isEmpty = false := by rw [text]; rfl
      rw [← text, same, someText]
      cases found : stripFront? "@endcode".toList (rest.dropWhile isIndent) with
      | none => rfl
      | some left =>
        have opened : opening (rest.dropWhile isIndent) ≠ .nothing := by
          rw [Ne, opening_eq_iff, stripFront?_eq_some.mp found]
          rintro ⟨⟩
        simp only [isSome_some, if_true, if_neg Bool.false_ne_true, map_none, none_or]
        cases kind : opening (rest.dropWhile isIndent) with
        | nothing => exact absurd kind opened
        | command kind text => exact (header?_bind (fun _ => rfl) _ _).symm
        | _ => rfl

theorem takes_fenced :
    TakesLine (fencedLine.read (readRule rules (levels + 2))) (view pickCode)
      (fun line => (fencedLine? line).map fun contents => [.line contents]) := by
  have blank : TakesLine ((readRule rules (levels + 2) "separator_line").map (.field "blank"))
      (view pickCode) (fun line => (line? line).bind (separatorValue? fun _ => [.line none])) :=
    (takes_separatorLine (fun _ => rfl) levels).capture view_blank
  rw [fencedLine, read_choice, readEach_cons, readEach_cons, readEach_nil, read_capture,
    read_reference, read_reference]
  exact ((takes_codeLine levels).or blank).congr fencedLine?_eq

def closeLine? (line : Text) : Option (List CodePart) :=
  if isFenceEnd line then some [.close (line ++ ['\n'])] else none

def closeOfPart (part : Part) : List CodePart := [.close part.chars]

/-- Fenced code is closed by a line, and by nothing of a tail that does not close it. -/
theorem reads_fenceEnd {tail : Text} (last : '\n' ∉ tail) (openEnd : isFenceEnd tail = false) :
    Reads Lexer.lines tail (fenceEndLine.read (readRule rules (levels + 1))) (view pickCode)
      (takeOne closeLine?) := by
  have stay : AllStay (readRule rules (levels + 1)) [lead, literal "@endcode", regex indentation] :=
    ⟨stays_field (stays_lead levels) _, Reader.stays_literal (by decide), stays_indentation _,
      trivial⟩
  have agree : ∀ line, '\n' ∉ line → closeLine? line = Reader.whole?
      (readEach (readRule rules (levels + 1)) [lead, literal "@endcode", regex indentation])
      (fun _ => [.close (line ++ ['\n'])]) line := by
    intro line unbroken
    refine agree_of_lead levels unbroken (fun unled => by simp [closeLine?, isFenceEnd, unled])
      fun front rest star _ => ?_
    have marker : Reader.literal "@endcode" (rest.dropWhile isIndent) =
        (stripFront? "@endcode".toList (rest.dropWhile isIndent)).map fun more =>
          (.text "@endcode".toList, more) := rfl
    simp only [closeLine?, isFenceEnd, star, readEach_cons, readEach_nil, read_literal,
      read_indentation, Reader.whole?_cons, Reader.whole?_nil, marker]
    cases stripFront? "@endcode".toList (rest.dropWhile isIndent) with
    | none => rfl
    | some more => simp only [Option.map_some, Option.bind_some, all_eq_isEmpty_dropWhile]
  rw [fenceEndLine, read_capture, read_sequence]
  refine Reads.of_line (fun line rest unbroken => ?_) ?_
  · have taken := Reader.Stays.takes_line stay.each
      (Reader.endsLine_lineEnd (readRule rules (levels + 1)))
      (fun line unbroken => agree_of_line stay.each (fun text => [CodePart.close text])
        (fun part => (rfl : closeOfPart part = _)) (agree line unbroken)) line rest unbroken
    rw [← taken, Reader.map, Option.map_map]
    rfl
  · have refused := agree tail last
    rw [closeLine?, openEnd, if_neg Bool.false_ne_true] at refused
    exact Option.map_eq_none_iff.mpr (Reader.sequence_lineEnd_stop stay.each _ last refused.symm)

theorem readRule_code : readRule rules (levels + 3) "code" =
    .sequence [fenceLine.read (readRule rules (levels + 2)),
      (fencedLine.read (readRule rules (levels + 2))).repetition 0 none,
      fenceEndLine.read (readRule rules (levels + 2))] := by
  have defined : bodyOf? rules "code" =
    some (sequence [fenceLine, many fencedLine, fenceEndLine]) := rfl
  rw [readRule_of_defined defined]
  simp only [read_sequence, readEach_cons, readEach_nil, many, read_repetition]

/-- Line by line, fenced code is an opening line, lines between fences and a closing line. -/
theorem takeEach_fenced (lines : List Text) :
    takeEach [takeOne fun line => (fence? line).map fun header => [CodePart.header header],
        takeMany (takeOne fun line => (fencedLine? line).map fun contents => [.line contents]),
        takeOne closeLine?] lines =
      (lexeme? lines).bind fun (lexeme, more) => (codeParts? lexeme.token).map (·, more) := by
  cases lines with
  | nil => rfl
  | cons line lines =>
    rw [lexeme?, token?, takeEach, takeOne]
    cases fence : fence? line with
    | none =>
      have noCode : (line? line).bind codeParts? = none := by
        unfold line?
        cases star? line with
        | none => rfl
        | some pair =>
          obtain ⟨front, rest⟩ := pair
          dsimp only
          cases opening (rest.dropWhile isIndent) with
          | command kind text => exact header?_bind (fun _ => rfl) _ _
          | _ => rfl
      cases found : line? line with
      | none => rfl
      | some token =>
        rw [found, bind_some] at noCode
        simp [noCode]
    | some header =>
      have inner : ∀ line, ((fencedLine? line).map fun contents => [CodePart.line contents]).isSome =
          isFenced line := fun line => isSome_map
      have parts : ∀ body : List Text, (∀ line ∈ body, isFenced line) →
          body.flatMap (fun line =>
            ((fencedLine? line).map fun contents => [CodePart.line contents]).getD []) =
          (body.filterMap fencedLine?).map .line := by
        intro body each
        induction body with
        | nil => rfl
        | cons line body ih =>
          obtain ⟨here, later⟩ := forall_mem_cons.mp each
          obtain ⟨contents, found⟩ := isSome_iff_exists.mp here
          rw [flatMap_cons, filterMap_cons, ih later]
          simp [found]
      have taken := parts (lines.takeWhile isFenced) (all_eq_true.mp all_takeWhile)
      simp only [map_some, bind_some, takeEach, takeMany, takeAll_takeOne, inner, fenced?, taken]
      cases lines.dropWhile isFenced with
      | nil => rfl
      | cons close rest =>
        simp only [takeOne, closeLine?]
        cases isFenceEnd close <;> simp [codeParts?]

/-- Fenced code is one token. -/
theorem reads_code {tail : Text} (last : '\n' ∉ tail) (openEnd : isFenceEnd tail = false) :
    Reads lexer tail (readRule rules (levels + 3) "code") (view pickCode)
      (takeOne fun lexeme => codeParts? lexeme.token) := by
  have joins := joins_view pickCode
  have inner := ((takes_fenced levels).reads last).many
    (splits_read (splits_readRule rules (levels + 2)) fencedLine) (shortens_takeOne _) joins
  rw [readRule_code]
  refine Reads.of_lines ?_ takeEach_fenced
  apply cons joins ((takes_fence (levels + 1)).reads last)
  apply cons joins inner
  exact cons joins (reads_fenceEnd (levels + 1) last openEnd) (nil joins)

end Fences

/-! ## Paragraphs behind a marker -/

def markedLine (kind : Construct) : Taking Lexeme TagLine :=
  takeOne fun lexeme => headerLine? kind lexeme.token

def proseLine {γ : Type} (make : TagLine → γ) : Taking Lexeme γ :=
  takeOne fun lexeme => textValue? make lexeme.token

def marked (kind : Construct) : Taking Lexeme TagLine :=
  takeEach [markedLine kind, takeMany (proseLine id)]

theorem shortens_marked (kind : Construct) : (marked kind).Shortens :=
  (shortens_takeOne _).both (shortens_takeOne _).any_takeMany

/-- The marker of a construct that has one spelling. -/
theorem readsMarker_only (rule : String → Reader) {marker : String} {word : Text}
    {kind : Construct} (spelled : marker.toList = '@' :: word) (wordChars : word.all isWordChar)
    (only : commands.filter (·.2 = kind) = [(word, kind)]) :
    ReadsMarker rule (command marker) kind := by
  refine readsMarker_command rule spelled wordChars fun other => ?_
  have listed : (other, kind) ∈ commands ↔ (other, kind) ∈ commands.filter (·.2 = kind) := by
    simp [mem_filter]
  rw [listed, only, mem_singleton, Prod.mk.injEq]
  exact and_iff_left rfl

section Marked

variable {levels : Nat} {tail : Text} (last : '\n' ∉ tail) {name : String} {marker : Expr}
  {kind : Construct}

include last

theorem reads_proseLine {γ : Type} {look : Part → List γ} {make : TagLine → γ}
    (seen : ∀ part, look (.field "line" part) = [make (lineOfPart (.field "line" part))]) :
    Reads lexer tail (readRule rules (levels + 2) "command_line") look (proseLine make) :=
  reads_line (takes_commandLine seen levels) (fun _ _ _ => rfl) last

theorem reads_proseLines {γ : Type} {look : Part → List γ} {make : TagLine → γ}
    (joins : Part.Joins look)
    (seen : ∀ part, look (.field "line" part) = [make (lineOfPart (.field "line" part))]) :
    Reads lexer tail ((readRule rules (levels + 2) "command_line").repetition 0 none) look
      (takeMany (proseLine make)) :=
  (reads_proseLine last seen).many (splits_readRule rules _ _) (shortens_takeOne _) joins

theorem reads_headerLine (reads : ReadsMarker (readRule rules (levels + 1)) marker kind)
    (noFence : kind ≠ .code) :
    Reads lexer tail ((headerLine marker (argumentOf kind)).read (readRule rules (levels + 1)))
      (view pickLine) (markedLine kind) :=
  reads_line (takes_header levels reads noFence) (fun _ _ _ => rfl) last

/-- A header and the lines of prose behind it. -/
theorem reads_marked (defined : bodyOf? rules name = some (tagged marker (argumentOf kind)))
    (reads : ReadsMarker (readRule rules (levels + 2)) marker kind) (noFence : kind ≠ .code) :
    Reads lexer tail (readRule rules (levels + 3) name) (view pickLine) (marked kind) := by
  have joins := joins_view pickLine
  rw [readRule_of_defined defined, tagged, read_sequence, readEach_cons, readEach_cons,
    readEach_nil, many, read_repetition, read_reference]
  apply cons joins (reads_headerLine last reads noFence)
  exact cons joins (reads_proseLines last joins view_line) (nil joins)

end Marked

/-! ## Runs of parameters -/

def separatorLines : Taking Lexeme Char := takeSome (takeOne fun lexeme =>
  separatorValue? id lexeme.token)

def parameterOf (kind : Construct) : Taking Lexeme (Text × RunEntry) :=
  takeText lexer (fun lines text => [(text, .parameter ⟨kind, lines⟩)]) (marked kind)

/-- Takes a parameter of either kind, with its text. -/
def parameter : Taking Lexeme (Text × RunEntry) :=
  takeFirst [parameterOf .tparam, parameterOf .param]

def innerSeparator : Taking Lexeme (Text × RunEntry) :=
  takeText lexer (fun _ text => [(text, .separator (firstLine text))]) separatorLines

def parameterRun : Taking Lexeme (Text × RunEntry) :=
  takeEach [takeSome parameter, takeMany (takeEach [innerSeparator, takeSome parameter])]

def entryOfPart? (part : Part) : Option RunEntry :=
  match part.label? with
  | some "separator" => some (.separator (firstLine part.chars))
  | some label =>
    match Construct.ofLabel? label with
    | some kind =>
      if kind.isParameter then some (.parameter ⟨kind, part.body.view pickLine⟩) else none
    | none => none
  | none => none

def pickEntry (part : Part) : Option (Text × RunEntry) :=
  (entryOfPart? part).map (part.chars, ·)

theorem view_parameter (kind : Construct) (parameterKind : kind.isParameter) (part : Part) :
    (Part.field kind.label part).view pickEntry =
      [(part.chars, .parameter ⟨kind, part.view pickLine⟩)] := by
  cases kind with
  | param | tparam =>
    simp [pickEntry, entryOfPart?,
      Construct.ofLabel?, Construct.all, Construct.label, Construct.isParameter]
  | brief | returns | code | note | warning | throws | see | related | relatedAlso | table
  | _ => cases parameterKind

theorem view_innerSeparator (part : Part) :
    (Part.field "separator" part).view pickEntry =
      [(part.chars, .separator (firstLine part.chars))] := by
  simp [pickEntry, entryOfPart?]

theorem shortens_separatorLines : separatorLines.Shortens := (shortens_takeOne _).takeSome

theorem shortens_parameter : parameter.Shortens :=
  (shortens_marked _).takeText.or ((shortens_marked _).takeText.or Taking.gives_nothing)

theorem shortens_separated : (takeEach [innerSeparator, takeSome parameter]).Shortens :=
  shortens_separatorLines.takeText.both shortens_parameter.takeSome.any

section Runs

variable {levels : Nat} {tail : Text} (last : '\n' ∉ tail)

include last

theorem reads_separator :
    Reads lexer tail (readRule rules (levels + 3) "separator") Part.chars separatorLines := by
  have defined : bodyOf? rules "separator" = some (many1 (reference "separator_line")) := rfl
  rw [readRule_of_defined defined, many1, read_repetition, read_reference]
  refine Reads.many1 (reads_line (takes_separatorLine (fun _ => rfl) levels) (fun _ _ _ => rfl) last)
    (splits_readRule rules _ _) (shortens_takeOne _) Part.joins_chars

theorem reads_parameter :
    Reads lexer tail (readRule rules (levels + 4) "parameter") (view pickEntry) parameter := by
  have defined : bodyOf? rules "parameter" =
    some (choice [captured "tparam", captured "param"]) := rfl
  have template : "@tparam".toList = '@' :: "tparam".toList := rfl
  have plain : "@param".toList = '@' :: "param".toList := rfl
  rw [readRule_of_defined defined, read_choice, readEach_cons, readEach_cons, readEach_nil,
    captured, captured, read_capture, read_capture, read_reference, read_reference]
  apply Reads.or
  · refine Reads.capture ?_ (splits_readRule rules _ _) (view_parameter .tparam rfl)
    exact reads_marked last rfl (readsMarker_only _ template (by decide) (by decide)) (by decide)
  apply Reads.or _ Reads.nothing
  refine Reads.capture ?_ (splits_readRule rules _ _) (view_parameter .param rfl)
  exact reads_marked last rfl (readsMarker_only _ plain (by decide) (by decide)) (by decide)

theorem reads_parameterRun :
    Reads lexer tail (readRule rules (levels + 5) "parameters") (view pickEntry)
      parameterRun := by
  have joins := joins_view pickEntry
  have splits := splits_readRule rules (levels + 4)
  have defined : bodyOf? rules "parameters" =
    some (sequence [many1 (reference "parameter"),
      many (sequence [captured "separator", many1 (reference "parameter")])]) := rfl
  have parameters := (reads_parameter last).many1 (splits "parameter") shortens_parameter joins
  have separator : Reads lexer tail
      ((readRule rules (levels + 4) "separator").map (.field "separator")) (view pickEntry)
      innerSeparator :=
    (reads_separator last).capture (splits "separator") view_innerSeparator
  have separated := cons joins separator (cons joins parameters (nil joins))
  rw [readRule_of_defined defined]
  simp only [read_sequence, readEach_cons, readEach_nil, many1, many, read_repetition,
    read_reference, captured, read_capture]
  apply cons joins parameters
  refine cons joins (Reads.many separated ?_ shortens_separated joins) (nil joins)
  refine Reader.Splits.sequence (forall_mem_cons.mpr ⟨?_, forall_mem_singleton.mpr ?_⟩)
  · exact (splits "separator").map fun _ => by rw [Part.chars]
  · exact (splits "parameter").repetition 1 none

end Runs

/-! ## Bullet items -/

def ItemPart.start? : ItemPart → Option ListItem
  | start item => some item
  | line _ => none

def ItemPart.contents : ItemPart → List Text
  | start item => item.contents
  | line contents => [contents]

def itemOfParts (breaking : Bool) (parts : List ItemPart) : ListItem :=
  { (parts.filterMap ItemPart.start?).head?.getD {} with
    breaking, contents := parts.flatMap ItemPart.contents }

/-- An item is its first line with the texts of the lines behind it. -/
theorem itemOfParts_start (breaking : Bool) (item : ListItem) (more : List TagLine) :
    itemOfParts breaking (.start { item with breaking := false } ::
      more.flatMap fun line => [.line line.contents]) =
        { item with breaking, contents := item.contents ++ more.map (·.contents) } := by
  have lines : (more.flatMap fun line => [ItemPart.line line.contents]) =
      more.map fun line => .line line.contents := map_eq_flatMap.symm
  have texts : (more.map fun line => ItemPart.line line.contents).flatMap ItemPart.contents =
      more.map (·.contents) := by
    rw [flatMap_map]
    exact map_eq_flatMap.symm
  rw [lines, itemOfParts, flatMap_cons, texts]
  rfl

def bulletItem (breaking : Bool) (test : ListItem → Bool) : Taking Lexeme ListItem :=
  takeText lexer (fun parts _ => [itemOfParts breaking parts])
    (takeEach [takeOne fun lexeme => startValue? test lexeme.token,
      takeMany (proseLine fun line => .line line.contents)])

/-- Takes an item: one that breaks after its first line if there is one. -/
def anyBulletItem : Taking Lexeme ListItem :=
  takeFirst [bulletItem true (·.breaking), bulletItem false fun _ => true]

def itemOfPart (part : Part) : ListItem :=
  itemOfParts (part.label? == some "breaking_list_item") (part.body.view pickItem)

theorem view_breakingItem (part : Part) :
    (Part.field "breaking_list_item" part).view (some ∘ itemOfPart) =
      [itemOfParts true (part.view pickItem)] := by
  simp [itemOfPart]

theorem view_plainItem (part : Part) :
    (Part.field "list_item" part).view (some ∘ itemOfPart) =
      [itemOfParts false (part.view pickItem)] := by
  simp [itemOfPart]

theorem shortens_bulletItem (breaking : Bool) (test : ListItem → Bool) :
    (bulletItem breaking test).Shortens :=
  ((shortens_takeOne _).both (shortens_takeOne _).any_takeMany).takeText

theorem shortens_anyBulletItem : anyBulletItem.Shortens :=
  (shortens_bulletItem _ _).or ((shortens_bulletItem _ _).or Taking.gives_nothing)

section ListItems

variable {τ : Type} {lexer : Lexer τ} {tail : Text} {rules : Rules}
  {levels : Nat}

/-- An item is read as its first line and the lines behind it are. -/
theorem reads_listItem {name line : String} {start : Expr} {breaking : Bool}
    {first lines : Taking τ ItemPart}
    (defined : bodyOf? rules name = some (sequence [start, many (reference line)]))
    (readsStart : Reads lexer tail (start.read (readRule rules levels)) (view pickItem) first)
    (readsLines : Reads lexer tail ((readRule rules levels line).repetition 0 none)
      (view pickItem) lines)
    (seen : ∀ part, (Part.field name part).view (some ∘ itemOfPart) =
      [itemOfParts breaking (part.view pickItem)]) :
    Reads lexer tail ((readRule rules (levels + 1) name).map (.field name))
      (view (some ∘ itemOfPart))
      (takeText lexer (fun parts _ => [itemOfParts breaking parts]) (takeEach [first, lines])) := by
  have joins := joins_view pickItem
  refine capture ?_ (splits_readRule rules _ _) seen
  rw [readRule_of_defined defined]
  exact cons joins readsStart (cons joins readsLines (nil joins))

/-- Items are read one by one, those that break after their first line before the others. -/
theorem reads_listItems {breaking plain : Taking τ ListItem}
    (defined : bodyOf? rules "list_items" =
      some (many1 (choice [captured "breaking_list_item", captured "list_item"])))
    (readsBreaking : Reads lexer tail ((captured "breaking_list_item").read (readRule rules levels))
      (view (some ∘ itemOfPart)) breaking)
    (readsPlain : Reads lexer tail ((captured "list_item").read (readRule rules levels))
      (view (some ∘ itemOfPart)) plain)
    (shortens : (takeFirst [breaking, plain]).Shortens) :
    Reads lexer tail (readRule rules (levels + 1) "list_items") (view (some ∘ itemOfPart))
      (takeSome (takeFirst [breaking, plain])) := by
  rw [readRule_of_defined defined]
  exact (or readsBreaking (or readsPlain Reads.nothing)).many1
    (splits_read (splits_readRule rules levels)
      (choice [captured "breaking_list_item", captured "list_item"])) shortens (joins_view _)

end ListItems

section Items

variable {levels : Nat} {tail : Text} (last : '\n' ∉ tail)

include last

theorem reads_bulletItem {name pattern : String} {breaking : Bool}
    {left? : Text → Option Text} {test : ListItem → Bool}
    (defined : bodyOf? rules name =
      some (sequence [listStart pattern, many (reference "command_line")]))
    (items : ReadsItems (readRule rules (levels + 2)) pattern left? test)
    (seen : ∀ part, (Part.field name part).view (some ∘ itemOfPart) =
      [itemOfParts breaking (part.view pickItem)]) :
    Reads lexer tail ((readRule rules (levels + 3) name).map (.field name))
      (view (some ∘ itemOfPart)) (bulletItem breaking test) :=
  reads_listItem defined (reads_line (takes_listStart items) (fun _ _ _ => rfl) last)
    (reads_proseLines last (joins_view _) view_itemLine) seen

theorem reads_bulletItems :
    Reads lexer tail (readRule rules (levels + 4) "list_items") (view (some ∘ itemOfPart))
      (takeSome anyBulletItem) :=
  reads_listItems rfl (reads_bulletItem last rfl (readsItems_breaking _) view_breakingItem)
    (reads_bulletItem last rfl (readsItems_plain _) view_plainItem) shortens_anyBulletItem

end Items

end Reflow.Document.Block
