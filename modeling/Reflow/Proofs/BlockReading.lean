import Reflow.Proofs.ParagraphReading

/-!
# Reading block comments

A text is read as a block comment exactly if it falls into an opening line, tokens of a body that
are taken together to paragraphs, and a closing line (`parse_eq_ok_iff`).
-/

namespace Reflow.Document.Block

open Text Layout Reflow.Expr List Reader Option Pattern

variable {γ : Type} {rest : Text} {make : List γ → Text → BlockItem} {part : Part}
  {reader : Reader} {taking : Taking Lexeme γ}

/-! ## Elements of a body -/

/-- What a capture of a body holds, with its text; of a run of parameters, the text of each element
too. -/
inductive Piece where
  | plain (text : Text) (item : BlockItem)
  | run (text : Text) (entries : List (Text × RunEntry))

def Piece.item : Piece → BlockItem
  | plain _ item => item
  | run _ entries => .paragraph (.parameters (entries.map (·.2)))

def CodePart.header? : CodePart → Option TagLine
  | header first => some first
  | _ => none

def CodePart.line? : CodePart → Option (Option Text)
  | line contents => some contents
  | _ => none

def CodePart.close? : CodePart → Option Text
  | close text => some text
  | _ => none

def codeOfParts (parts : List CodePart) : Paragraph :=
  .code ((parts.filterMap CodePart.header?).head?.getD {}) (parts.filterMap CodePart.line?)
    ((parts.filterMap CodePart.close?).head?.getD [])

def ofLines (kind : Construct) (lines : List TagLine) : Paragraph :=
  match kind.strategy with
  | .breaking => .breaking kind lines
  | .reference => .reference kind (lines.head?.getD {})
  | _ => .contiguous kind lines

def paragraphOfPart (kind : Construct) (part : Part) : Paragraph :=
  match kind.strategy with
  | .fenced => codeOfParts (part.view pickCode)
  | .bullets => .listItems (part.view (some ∘ itemOfPart))
  | .verbatim => .verbatim kind part.chars
  | _ => ofLines kind (part.view pickLine)

def pickPiece (part : Part) : Option Piece :=
  match part.label? with
  | some "start" | some "end" => none
  | some "separator" => some (.plain part.chars (.separator (firstLine part.chars)))
  | some "parameters" => some (.run part.chars (part.body.view pickEntry))
  | some label => (Construct.ofLabel? label).map fun kind =>
    .plain part.chars (.paragraph (paragraphOfPart kind part.body))
  | none => none

def piece {γ : Type} (make : List γ → Text → BlockItem) (taking : Taking Lexeme γ) :
    Taking Lexeme Piece :=
  takeText lexer (fun values text => [.plain text (make values text)]) taking

def paragraphOf (kind : Construct) (taking : Taking Lexeme TagLine) : Taking Lexeme Piece :=
  piece (fun lines _ => .paragraph (ofLines kind lines)) taking

def verbatimOf (kind : Construct) (taking : Taking Lexeme Char) : Taking Lexeme Piece :=
  piece (fun _ text => .paragraph (.verbatim kind text)) taking

def separatorPiece : Taking Lexeme Piece :=
  piece (fun _ text => .separator (firstLine text)) separatorLines

def runPiece : Taking Lexeme Piece :=
  takeText lexer (fun entries text => [.run text entries]) parameterRun

def codePiece : Taking Lexeme Piece :=
  piece (fun parts _ => .paragraph (codeOfParts parts))
    (takeOne fun lexeme => codeParts? lexeme.token)

def itemsPiece : Taking Lexeme Piece :=
  piece (fun items _ => .paragraph (.listItems items)) (takeSome anyBulletItem)

def tableRows : Taking Lexeme Char := takeSome (takeOne fun lexeme => rowText? lexeme.token)

def linkTarget : Taking Lexeme Char := takeOne fun lexeme => linkText? lexeme.token

def proseLines : Taking Lexeme TagLine := takeSome (proseLine id)

def element : Taking Lexeme Piece :=
  takeFirst
    [separatorPiece, paragraphOf .brief (marked .brief), runPiece,
      paragraphOf .returns (marked .returns), codePiece, paragraphOf .note (marked .note),
      paragraphOf .warning (marked .warning), paragraphOf .throws (marked .throws),
      paragraphOf .see (markedLine .see), paragraphOf .relatedAlso (markedLine .relatedAlso),
      paragraphOf .related (markedLine .related), verbatimOf .table tableRows, itemsPiece,
      verbatimOf .referenceLink linkTarget, paragraphOf .details proseLines]

/-- The constructs with a marker and prose behind it. -/
def markedKinds : List Construct := [.brief, .returns, .note, .warning, .throws]

/-- The constructs of one line. -/
def referenceKinds : List Construct := [.see, .relatedAlso, .related]

/-- A relation between tokens and elements that holds whichever way an element is taken. -/
structure EachElement (holds : List Lexeme → List Piece → Prop) : Prop where
  separators : separatorPiece.Gives holds
  marked : ∀ kind ∈ markedKinds, (paragraphOf kind (marked kind)).Gives holds
  run : runPiece.Gives holds
  code : codePiece.Gives holds
  references : ∀ kind ∈ referenceKinds, (paragraphOf kind (markedLine kind)).Gives holds
  table : (verbatimOf .table tableRows).Gives holds
  items : itemsPiece.Gives holds
  link : (verbatimOf .referenceLink linkTarget).Gives holds
  details : (paragraphOf .details proseLines).Gives holds

variable {kind : Construct} {line tail text : Text} {levels : Nat}
  {holds : List Lexeme → List Piece → Prop}

theorem EachElement.gives (each : EachElement holds) : element.Gives holds := by
  apply each.separators.or
  apply (each.marked .brief (by decide)).or
  apply each.run.or
  apply (each.marked .returns (by decide)).or
  apply each.code.or
  apply (each.marked .note (by decide)).or
  apply (each.marked .warning (by decide)).or
  apply (each.marked .throws (by decide)).or
  apply (each.references .see (by decide)).or
  apply (each.references .relatedAlso (by decide)).or
  apply (each.references .related (by decide)).or
  apply each.table.or
  apply each.items.or
  apply each.link.or
  exact each.details.or Taking.gives_nothing

theorem shortens_parameterRun : parameterRun.Shortens :=
  shortens_parameter.takeSome.both shortens_separated.any_takeMany

theorem gives_piece (gives : taking.Gives fun taken values => holds taken
      [.plain (unlines (taken.flatMap Lexeme.source))
        (make values (unlines (taken.flatMap Lexeme.source)))]) : (piece make taking).Gives holds :=
  Taking.Gives.takeText gives

theorem shortens_piece (shortens : taking.Shortens) : (piece make taking).Shortens :=
  gives_piece shortens

theorem shortens_element : element.Shortens :=
  EachElement.gives
    { separators := shortens_piece shortens_separatorLines
      marked := fun kind _ => shortens_piece (shortens_marked kind)
      run := shortens_parameterRun.takeText
      code := shortens_piece (shortens_takeOne _)
      references := fun _ _ => shortens_piece (shortens_takeOne _)
      table := shortens_piece (shortens_takeOne _).takeSome
      items := shortens_piece shortens_anyBulletItem.takeSome
      link := shortens_piece (shortens_takeOne _)
      details := shortens_piece (shortens_takeOne _).takeSome }

/-! ## Reading elements -/

theorem view_separator (part : Part) : (Part.field "separator" part).view pickPiece =
    [.plain part.chars (.separator (firstLine part.chars))] := by
  simp [pickPiece]

theorem view_run (part : Part) : (Part.field "parameters" part).view pickPiece =
    [.run part.chars (part.view pickEntry)] := by
  simp [pickPiece]

theorem view_construct (kind : Construct) (part : Part) :
    (Part.field kind.label part).view pickPiece =
      [.plain part.chars (.paragraph (paragraphOfPart kind part))] := by
  cases kind <;> simp [pickPiece, Construct.label, Construct.ofLabel?, Construct.all]

section Elements

variable {levels : Nat} {tail : Text} (last : '\n' ∉ tail)

/-- What is captured is an element. -/
theorem reads_piece {label : String} {look : Part → List γ}
    (reads : Reads lexer tail reader look taking) (splits : reader.Splits)
    (seen : ∀ part, (Part.field label part).view pickPiece =
      [.plain part.chars (make (look part) part.chars)]) :
    Reads lexer tail (reader.map (.field label)) (Part.view pickPiece) (piece make taking) :=
  Reads.capture reads splits seen

/-- A captured construct is an element. -/
theorem reads_construct {look : Part → List γ} {make : List γ → Text → Paragraph}
    (reads : Reads lexer tail reader look taking) (splits : reader.Splits)
    (agrees : ∀ part, paragraphOfPart kind part = make (look part) part.chars) :
    Reads lexer tail (reader.map (.field kind.label)) (Part.view pickPiece)
      (piece (fun values text => .paragraph (make values text)) taking) := by
  refine reads_piece reads splits fun part => ?_
  rw [view_construct, agrees]

theorem reads_paragraphOf {taking : Taking Lexeme TagLine}
    (reads : Reads lexer tail reader (Part.view pickLine) taking) (splits : reader.Splits)
    (told : ∀ part, paragraphOfPart kind part = ofLines kind (part.view pickLine)) :
    Reads lexer tail (reader.map (.field kind.label)) (Part.view pickPiece)
      (paragraphOf kind taking) :=
  reads_construct reads splits told

theorem reads_verbatimOf {taking : Taking Lexeme Char}
    (reads : Reads lexer tail reader Part.chars taking) (splits : reader.Splits)
    (told : ∀ part, paragraphOfPart kind part = .verbatim kind part.chars) :
    Reads lexer tail (reader.map (.field kind.label)) (Part.view pickPiece)
      (verbatimOf kind taking) :=
  reads_construct reads splits told

include last

theorem reads_separatorPiece :
    Reads lexer tail ((readRule rules (levels + 3) "separator").map (.field "separator"))
      (Part.view pickPiece) separatorPiece := by
  refine reads_piece (reads_separator last) (splits_readRule rules _ _) fun part => ?_
  exact view_separator part

theorem reads_table :
    Reads lexer tail (readRule rules (levels + 2) "table") Part.chars
      tableRows := by
  have defined : bodyOf? rules "table" = some (many1 tableRow) := rfl
  have splits := splits_read (splits_readRule rules (levels + 1)) tableRow
  have row := reads_line (takes_row levels) (fun _ _ _ => rfl) last
  rw [readRule_of_defined defined, many1, read_repetition]
  exact row.many1 splits (shortens_takeOne _) Part.joins_chars

theorem reads_link :
    Reads lexer tail (readRule rules (levels + 2) "reference_link") Part.chars
      linkTarget := by
  have defined : bodyOf? rules "reference_link" = some linkLine := rfl
  rw [readRule_of_defined defined]
  exact reads_line (takes_link levels) (fun _ _ _ => rfl) last

theorem reads_details :
    Reads lexer tail (readRule rules (levels + 3) "details") (Part.view pickLine)
      proseLines := by
  have defined : bodyOf? rules "details" = some (many1 (reference "command_line")) := rfl
  rw [readRule_of_defined defined, many1, read_repetition, read_reference]
  exact (reads_proseLine last view_line).many1 (splits_readRule rules _ _) (shortens_takeOne _)
    (Part.joins_view _)

end Elements

def bodyElement : Expr :=
  choice
    [captured "separator", captured "brief", captured "parameters", captured "returns",
      captured "code", captured "note", captured "warning", captured "throws", captured "see",
      captured "related_also", captured "related", captured "table", captured "list_items",
      captured "reference_link", captured "details"]

/-- The markers that have one spelling. -/
theorem reads_marker {rule : String → Reader}
    (member : kind ∈ [Construct.brief, .note, .warning, .throws, .see, .relatedAlso, .related]) :
    ReadsMarker rule (command kind.marker) kind := by
  have spelled : ∀ kind ∈ [Construct.brief, .note, .warning, .throws, .see, .relatedAlso, .related],
      kind.marker.toList = '@' :: kind.marker.toList.tail ∧
        kind.marker.toList.tail.all isWordChar ∧
          commands.filter (·.2 = kind) = [(kind.marker.toList.tail, kind)] := by decide
  obtain ⟨atSign, wordChars, only⟩ := spelled kind member
  exact readsMarker_only _ atSign wordChars only

section Elements

variable {levels : Nat} {tail : Text} (last : '\n' ∉ tail)

include last

section Marked

variable
  (member : kind ∈ [Construct.brief, .note, .warning, .throws, .see, .relatedAlso, .related])
  (noFence : kind ≠ .code)
  (told : ∀ part, paragraphOfPart kind part = ofLines kind (part.view pickLine))

include member noFence told

theorem reads_taggedPiece
    (defined : bodyOf? rules kind.label = some (tagged (command kind.marker) (argumentOf kind))) :
    Reads lexer tail ((readRule rules (levels + 3) kind.label).map (.field kind.label))
      (Part.view pickPiece) (paragraphOf kind (marked kind)) :=
  reads_paragraphOf (reads_marked last defined (reads_marker member) noFence)
    (splits_readRule rules _ _) told

theorem reads_referencePiece
    (defined : bodyOf? rules kind.label =
      some (headerLine (command kind.marker) (argumentOf kind))) :
    Reads lexer tail ((readRule rules (levels + 2) kind.label).map (.field kind.label))
      (Part.view pickPiece) (paragraphOf kind (markedLine kind)) := by
  refine reads_paragraphOf ?_ (splits_readRule rules _ _) told
  rw [readRule_of_defined defined]
  exact reads_headerLine last (reads_marker member) noFence

end Marked

theorem reads_codePiece (openEnd : isFenceEnd tail = false) :
    Reads lexer tail ((readRule rules (levels + 3) "code").map (.field "code"))
      (Part.view pickPiece) codePiece :=
  reads_piece (reads_code levels last openEnd) (splits_readRule rules _ _) (view_construct .code)

theorem reads_itemsPiece :
    Reads lexer tail ((readRule rules (levels + 4) "list_items").map (.field "list_items"))
      (Part.view pickPiece) itemsPiece :=
  reads_piece (reads_bulletItems last) (splits_readRule rules _ _) (view_construct .listItems)

theorem reads_element (openEnd : isFenceEnd tail = false) :
    Reads lexer tail (bodyElement.read (readRule rules (levels + 5))) (Part.view pickPiece)
      element := by
  have splits := splits_readRule rules (levels + 5)
  simp only [bodyElement, read_choice, readEach_cons, readEach_nil, captured, read_capture,
    read_reference]
  apply Reads.or (reads_separatorPiece last)
  apply Reads.or (reads_taggedPiece last (by decide) (by decide) (fun _ => rfl) rfl)
  apply Reads.or ((reads_parameterRun last).capture (splits "parameters") view_run)
  apply Reads.or (reads_paragraphOf (reads_marked last rfl (readsMarker_returns _) (by decide))
    (splits "returns") fun _ => rfl)
  apply Reads.or (reads_codePiece last openEnd)
  apply Reads.or (reads_taggedPiece last (by decide) (by decide) (fun _ => rfl) rfl)
  apply Reads.or (reads_taggedPiece last (by decide) (by decide) (fun _ => rfl) rfl)
  apply Reads.or (reads_taggedPiece last (by decide) (by decide) (fun _ => rfl) rfl)
  apply Reads.or (reads_referencePiece last (by decide) (by decide) (fun _ => rfl) rfl)
  apply Reads.or (reads_referencePiece last (by decide) (by decide) (fun _ => rfl) rfl)
  apply Reads.or (reads_referencePiece last (by decide) (by decide) (fun _ => rfl) rfl)
  apply Reads.or (reads_verbatimOf (reads_table last) (splits "table") fun _ => rfl)
  apply Reads.or (reads_itemsPiece last)
  apply Reads.or (reads_verbatimOf (reads_link last) (splits "reference_link") fun _ => rfl)
  exact Reads.or (reads_paragraphOf (reads_details last) (splits "details") fun _ => rfl)
    Reads.nothing

end Elements

/-! ## Opening and closing lines -/

def isOpening (line : Text) : Bool :=
  match openMark? (line.dropWhile isIndent) with
  | some (_, rest) => rest.all isIndent
  | none => false

def isClosing (line : Text) : Bool :=
  match closeMark? (line.dropWhile isIndent) with
  | some (_, rest) => rest.all isIndent
  | none => false

def closingText? (line : Text) : Option Text :=
  if isClosing line then some (line ++ ['\n']) else none

/-- A mark behind indentation, with indentation behind it, makes up a line. -/
theorem whole?_mark {rule : String → Reader} {mark : Expr} {mark? : Text → Option (Text × Text)}
    (readsMark : mark.read rule line = (mark? (line.dropWhile isIndent)).map fun (mark, rest) =>
      (.text (line.takeWhile isIndent ++ mark), rest)) {marked : Bool}
    (isMarked : marked = match mark? (line.dropWhile isIndent) with
      | some (_, rest) => rest.all isIndent
      | none => false) :
    (if marked then some (line ++ ['\n']) else none) =
      whole? (readEach rule [mark, regex indentation]) (fun _ => line ++ ['\n'])
        line := by
  rw [isMarked]
  simp only [readEach_cons, readEach_nil, whole?_cons, whole?_nil, readsMark, read_indentation]
  cases mark? (line.dropWhile isIndent) with
  | none => rfl
  | some pair => simp only [map_some, all_eq_isEmpty_dropWhile]; rfl

section Marks

variable (levels : Nat)

theorem stays_start :
    AllStay (readRule rules levels) [regex "[\\t ]*/\\*\\*?", regex indentation] :=
  ⟨stays_openMark _, stays_indentation _, trivial⟩

theorem readRule_end : readRule rules (levels + 1) "end" =
    .sequence (readEach (readRule rules levels) [regex "[\\t ]*\\*\\*?/",
      regex indentation] ++ [lineEnd.read (readRule rules levels)]) := by
  have defined : bodyOf? rules "end" =
    some (sequence ([regex "[\\t ]*\\*\\*?/", regex indentation] ++ [lineEnd])) := rfl
  rw [readRule_of_defined defined, read_sequence, readEach_append]
  rfl

theorem stays_end : AllStay (readRule rules levels) [regex "[\\t ]*\\*\\*?/", regex indentation] :=
  ⟨stays_closeMark _, stays_indentation _, trivial⟩

/-- The first line is read if it opens a comment. -/
theorem takes_start : TakesLine (readRule rules (levels + 1) "start") Part.chars
    (fun line => if isOpening line then some (line ++ ['\n']) else none) := by
  have defined : bodyOf? rules "start" =
    some (sequence [regex "[\\t ]*/\\*\\*?", regex indentation, regex "\\n"]) := rfl
  have newline : (regex "\\n").read (readRule rules levels) = .literal "\n" :=
    funext fun input => read_newline _ input
  rw [readRule_of_defined defined, read_sequence, readEach_cons, readEach_cons, readEach_cons,
    readEach_nil, newline]
  exact TakesLine.of_text (stays_start levels) id (fun _ => rfl) fun line _ =>
    whole?_mark (read_openMark _ line) rfl

theorem whole?_end (line : Text) :
    closingText? line = whole? (readEach (readRule rules levels)
      [regex "[\\t ]*\\*\\*?/", regex indentation]) (fun _ => line ++ ['\n']) line :=
  whole?_mark (read_closeMark _ line) rfl

/-- The last line is read if it closes a comment. -/
theorem read_end (line rest : Text) (unbroken : '\n' ∉ line) :
    (readRule rules (levels + 1) "end" (line ++ '\n' :: rest)).map
        (fun (part, rest) => (part.chars, rest)) = (closingText? line).map (·, rest) := by
  rw [readRule_end]
  refine Reader.Stays.takes_line (stays_end levels).each (endsLine_lineEnd _)
    (fun line _ => ?_) line rest unbroken
  exact agree_of_line (stays_end levels).each id (fun _ => rfl) (whole?_end levels line)

/-- A line that closes a comment need not end with a line break. -/
theorem read_end_tail (last : '\n' ∉ tail) :
    (readRule rules (levels + 1) "end" tail).map (fun (part, rest) => (part.chars, rest)) =
      if isClosing tail then some (tail, []) else none := by
  have marks := whole?_end levels tail
  rw [closingText?] at marks
  rw [readRule_end]
  cases closes : isClosing tail with
  | false =>
    rw [closes, if_neg Bool.false_ne_true] at marks
    rw [Reader.sequence_lineEnd_stop (stays_end levels).each _ last marks.symm]
    rfl
  | true =>
    rw [closes, if_pos rfl] at marks
    obtain ⟨⟨parts, left⟩, read, ends⟩ := bind_eq_some_iff.mp marks.symm
    cases left with
    | cons c left => cases ends
    | nil =>
      have whole := Reader.Splits.readAll
        (fun reader member => ((stays_end levels).each reader member).splits) read
      rw [append_nil, Part.charsAll_eq_flatMap] at whole
      rw [Reader.sequence, Reader.readAll_append, read]
      simp [Reader.readAll, Reader.read_lineEnd, Part.charsAll_eq_flatMap, ← whole]

end Marks

/-! ## Comments -/

/-- The last character that does not indent. -/
def lastSolid (text : Text) : Option Char := (text.reverse.dropWhile isIndent).head?

theorem lastSolid_append {first second : Text} {c : Char} (found : lastSolid second = some c) :
    lastSolid (first ++ second) = some c := by
  unfold lastSolid at found ⊢
  rw [reverse_append]
  have someLeft : second.reverse.dropWhile isIndent ≠ [] := by
    intro noneLeft
    rw [noneLeft] at found
    cases found
  rw [dropWhile_append, if_neg (by simpa using someLeft)]
  obtain ⟨d, more, same⟩ := exists_cons_of_ne_nil someLeft
  rw [same] at found ⊢
  exact found

theorem lastSolid_indented {blanks : Text} {c : Char} (solid : isIndent c = false)
    (indents : blanks.all isIndent) : lastSolid (text ++ c :: blanks) = some c := by
  have each : ∀ d ∈ blanks.reverse, isIndent d := fun d member =>
    all_eq_true.mp indents d (mem_reverse.mp member)
  apply lastSolid_append
  rw [lastSolid, reverse_cons, dropWhile_append_of_pos each,
    dropWhile_cons_of_neg (by rw [solid]; exact Bool.false_ne_true)]
  rfl

theorem closeMark?_ends {mark : Text} (found : closeMark? text = some (mark, rest)) :
    ∃ front, mark = front ++ ['/'] := by
  unfold closeMark? at found
  split at found
  · cases found
    exact ⟨['*', '*'], rfl⟩
  · cases found
    exact ⟨['*'], rfl⟩
  · cases found

/-- A line that closes a comment ends with a slash, up to indentation. -/
theorem lastSolid_of_isClosing (closes : isClosing line) : lastSolid line = some '/' := by
  unfold isClosing at closes
  split at closes
  · next mark rest found =>
    obtain ⟨front, rfl⟩ := closeMark?_ends found
    have split : line = (line.takeWhile isIndent ++ front) ++ '/' :: rest := by
      have whole : line.takeWhile isIndent ++ line.dropWhile isIndent = line :=
        takeWhile_append_dropWhile
      rw [closeMark?_split found] at whole
      simpa using whole.symm
    rw [split]
    exact lastSolid_indented rfl closes
  · cases closes

/-- A line that closes fenced code ends with its marker, up to indentation. -/
theorem lastSolid_of_isFenceEnd (ends : isFenceEnd line) : lastSolid line = some 'e' := by
  unfold isFenceEnd at ends
  split at ends
  · cases ends
  · next front rest star =>
    split at ends
    · next more found =>
      have body := stripFront?_eq_some.mp found
      have whole : rest.takeWhile isIndent ++ rest.dropWhile isIndent = rest :=
        takeWhile_append_dropWhile
      have marker : "@endcode".toList = "@endcod".toList ++ ['e'] := rfl
      rw [body, marker] at whole
      have split : line = (front ++ rest.takeWhile isIndent ++ "@endcod".toList) ++ 'e' :: more := by
        rw [star?_split star]
        simpa using whole.symm
      rw [split]
      exact lastSolid_indented rfl ends
    · cases ends

/-- A line of a body does not close the comment. -/
theorem isClosing_of_star? {front : Text} (star : star? line = some (front, rest)) :
    isClosing line = false := by
  have blank := head_of_star? star
  unfold star? at star
  split at star
  · next more stripped =>
    split at star
    · cases star
      have noMark : closeMark? (line.dropWhile isIndent) = none := by
        rw [closeMark?, stripped]
        cases rest with
        | nil => rfl
        | cons c rest =>
          have other : c ≠ '*' ∧ c ≠ '/' := by
            constructor <;> rintro rfl <;> cases blank
          simp [other]
      rw [isClosing, noMark]
    · cases star
  · cases star

theorem star?_of_isClosing (closes : isClosing line) : star? line = none := by
  cases star : star? line with
  | none => rfl
  | some pair =>
    rw [isClosing_of_star? star] at closes
    cases closes

theorem star?_of_line? {token : Token} (found : line? line = some token) :
    (star? line).isSome := by
  unfold line? at found
  split at found
  · cases found
  · next star => rw [star]; rfl

theorem star?_of_fence? {header : TagLine} (found : fence? line = some header) :
    (star? line).isSome := by
  unfold fence? at found
  split at found
  · cases found
  · next star => rw [star]; rfl

/-- Every token begins with a line of a body. -/
theorem IsToken.star? {source : List Text} {token : Token} (known : IsToken source token) :
    ∃ line lines, source = line :: lines ∧ (Block.star? line).isSome := by
  cases known with
  | line found => exact ⟨_, [], rfl, star?_of_line? found⟩
  | code opens _ _ => exact ⟨_, _, rfl, star?_of_fence? opens⟩

/-- A text falls into an opening line, tokens that are all taken, and a closing line. -/
structure IsComment (text opening : Text) (lexemes : List Lexeme) (closing ending : Text) :
    Prop where
  opens : isOpening opening
  known : ∀ lexeme ∈ lexemes, IsToken lexeme.source lexeme.token
  taken : (takeAll element lexemes).2 = []
  closes : isClosing closing
  ends : ending = [] ∨ ending = ['\n']
  cleanOpening : '\n' ∉ opening
  cleanBody : Unbroken (lexemes.flatMap Lexeme.source)
  cleanClosing : '\n' ∉ closing
  whole : text = opening ++ '\n' :: (unlines (lexemes.flatMap Lexeme.source) ++ (closing ++ ending))

section Root

variable (levels : Nat) {tail : Text} (last : '\n' ∉ tail)

theorem readRule_root : readRule rules (levels + 6) "block_comment" =
    .sequence [(readRule rules (levels + 5) "start").map (.field "start"),
      (bodyElement.read (readRule rules (levels + 5))).repetition 0 none,
      (readRule rules (levels + 5) "end").map (.field "end")] := by
  have defined : bodyOf? rules "block_comment" =
    some (sequence [captured "start", many bodyElement, captured "end"]) := rfl
  rw [readRule_of_defined defined]
  simp only [read_sequence, readEach_cons, readEach_nil, captured, read_capture, read_reference,
    many, read_repetition]

include last

/-- Elements are taken off a body as far as that goes. -/
theorem reads_body (openEnd : isFenceEnd tail = false) :
    Reads lexer tail ((bodyElement.read (readRule rules (levels + 5))).repetition 0 none)
      (Part.view pickPiece) (takeMany element) :=
  (reads_element last openEnd).many (splits_read (splits_readRule rules _) bodyElement)
    shortens_element (Part.joins_view _)

end Root

def elementLabels : List String :=
  ["separator", "brief", "parameters", "returns", "code", "note", "warning", "throws", "see",
    "related_also", "related", "table", "list_items", "reference_link", "details"]

/-- Rules that are captured under their own names are read as rules. -/
theorem readEach_captured (rule : String → Reader) (names : List String) :
    readEach rule (names.map captured) = names.map fun name => (rule name).map (.field name) := by
  induction names with
  | nil => rfl
  | cons name names ih => rw [map_cons, readEach_cons, ih]; rfl

/-- All that is read by a choice of captured rules is captured under one of their names. -/
theorem labels_captured (rule : String → Reader) (names : List String) :
    ((choice (names.map captured)).read rule).Labels names := by
  rw [read_choice, readEach_captured]
  refine Reader.Labels.choice fun reader member => ?_
  obtain ⟨name, among, rfl⟩ := mem_map.mp member
  exact labels_capture _ among

/-- All that is read of a body is captured. -/
theorem labels_body (rule : String → Reader) :
    ((bodyElement.read rule).repetition 0 none).Labels elementLabels :=
  Reader.Labels.repetition (labels_captured rule elementLabels) 0 none

/-- What is read as the closing line is one, with a line break or without. -/
theorem exists_closing (read : readRule rules (levels + 1) "end" text = some (part, [])) :
    ∃ closing ending, text = closing ++ ending ∧ isClosing closing ∧ '\n' ∉ closing ∧
      (ending = [] ∨ ending = ['\n']) := by
  obtain ⟨lines, tail, rfl, unbroken, last⟩ := exists_unlines text
  cases lines with
  | nil =>
    have found := read_end_tail levels last
    rw [unlines_nil, nil_append] at read
    rw [read] at found
    split at found
    · next closes => exact ⟨tail, [], by simp, closes, last, .inl rfl⟩
    · cases found
  | cons line lines =>
    have clean := unbroken line mem_cons_self
    have text : unlines (line :: lines) ++ tail = line ++ '\n' :: (unlines lines ++ tail) := by
      rw [unlines_cons, append_assoc, cons_append]
    have found := read_end levels line (unlines lines ++ tail) clean
    rw [← text, read, map_some] at found
    obtain ⟨_, closes, same⟩ := map_eq_some_iff.mp found.symm
    have nothing : unlines lines ++ tail = [] := (Prod.mk.inj same).2
    unfold closingText? at closes
    split at closes
    · next closing =>
      exact ⟨line, ['\n'], by rw [text, nothing], closing, clean, .inr rfl⟩
    · cases closes

/-- A closing line is read as a whole. -/
theorem read_closing (levels : Nat) {closing ending : Text} (closes : isClosing closing)
    (clean : '\n' ∉ closing) (ends : ending = [] ∨ ending = ['\n']) :
    ∃ part, readRule rules (levels + 1) "end" (closing ++ ending) = some (part, []) ∧
      part.chars = closing ++ ending := by
  rcases ends with rfl | rfl
  · have found := read_end_tail levels clean
    rw [closes, if_pos rfl] at found
    obtain ⟨⟨part, rest⟩, read, same⟩ := map_eq_some_iff.mp found
    obtain ⟨chars, rfl⟩ := Prod.mk.inj same
    rw [append_nil]
    exact ⟨part, read, chars⟩
  · have found := read_end levels closing [] clean
    rw [closingText?, closes, if_pos rfl] at found
    obtain ⟨⟨part, rest⟩, read, same⟩ := map_eq_some_iff.mp found
    obtain ⟨chars, rfl⟩ := Prod.mk.inj same
    exact ⟨part, read, chars⟩

abbrev commentPart (first body last : Part) : Part :=
  .list [.field "start" first, body, .field "end" last]

/-- What is read as a comment is an opening line, a body and a closing line. -/
theorem read_root_cases
    (read : readRule rules (levels + 6) "block_comment" text = some (part, rest)) :
    ∃ first body last more left,
      readRule rules (levels + 5) "start" text = some (first, more) ∧
      (bodyElement.read (readRule rules (levels + 5))).repetition 0 none more = some (body, left) ∧
      readRule rules (levels + 5) "end" left = some (last, rest) ∧
      part = commentPart first body last := by
  rw [readRule_root] at read
  simp only [Reader.sequence, Reader.readAll, Reader.map] at read
  cases first : readRule rules (levels + 5) "start" text with
  | none => simp [first] at read
  | some one =>
    cases body : (bodyElement.read (readRule rules (levels + 5))).repetition 0 none one.2 with
    | none => simp [first, body] at read
    | some two =>
      cases last : readRule rules (levels + 5) "end" two.2 with
      | none => simp [first, body, last] at read
      | some three =>
        simp only [first, body, last, map_some, some.injEq, Prod.mk.injEq] at read
        obtain ⟨rfl, rfl⟩ := read
        exact ⟨one.1, two.1, three.1, one.2, two.2, rfl, body, last, rfl⟩

/-- The rest of a text that is read as a comment does not close fenced code. -/
theorem isFenceEnd_of_read {lines : List Text} {part : Part}
    (read : readRule rules (levels + 6) "block_comment" (unlines lines ++ tail) = some (part, [])) :
    isFenceEnd tail = false := by
  obtain ⟨first, body, last, more, left, firstRead, bodyRead, lastRead, _⟩ := read_root_cases read
  have splits := splits_readRule rules (levels + 5)
  have front := (splits "start").split firstRead
  have middle := ((splits_read splits bodyElement).repetition 0 none).split bodyRead
  obtain ⟨closing, ending, rfl, closes, _, ends⟩ := exists_closing lastRead
  cases fence : isFenceEnd tail with
  | false => rfl
  | true =>
    have byTail : lastSolid (unlines lines ++ tail) = some 'e' :=
      lastSolid_append (lastSolid_of_isFenceEnd fence)
    rw [front, middle] at byTail
    rcases ends with rfl | rfl
    · rw [append_nil, lastSolid_append (lastSolid_append (lastSolid_of_isClosing closes))]
        at byTail
      cases byTail
    · have newline : lastSolid (closing ++ ['\n']) = some '\n' := lastSolid_indented rfl rfl
      rw [lastSolid_append (lastSolid_append newline)] at byTail
      cases byTail

/-- A token is not read as the closing line. -/
theorem read_end_token {lexeme : Lexeme} {lexemes : List Lexeme} {stop : List Text}
    (scans : lexer.Scans (lexeme :: lexemes) stop) :
    readRule rules (levels + 1) "end" (lexer.text (lexeme :: lexemes) stop tail) = none := by
  have known := knows_iff.mp (scans.known lexeme mem_cons_self)
  obtain ⟨line, lines, source, star⟩ := known.star?
  obtain ⟨⟨front, rest⟩, star⟩ := isSome_iff_exists.mp star
  have clean : '\n' ∉ line := by
    apply scans.unbroken
    rw [Lexer.linesOf_cons]
    change line ∈ lexeme.source ++ _
    rw [source]
    exact mem_cons_self
  have text : lexer.text (lexeme :: lexemes) stop tail =
      line ++ '\n' :: (unlines lines ++ lexer.text lexemes stop tail) := by
    rw [Lexer.text, Lexer.linesOf_cons]
    change unlines (lexeme.source ++ _) ++ tail = _
    rw [source, cons_append, unlines_cons, unlines_append, Lexer.text]
    simp
  have found := read_end levels line (unlines lines ++ lexer.text lexemes stop tail) clean
  rw [closingText?, isClosing_of_star? star] at found
  rw [text]
  exact map_eq_none_iff.mp found

theorem exists_isComment
    (read : readRule rules (levels + 6) "block_comment" text = some (part, [])) :
    ∃ opening lexemes closing ending, IsComment text opening lexemes closing ending := by
  obtain ⟨lines, tail, rfl, unbroken, last⟩ := exists_unlines text
  have openEnd := isFenceEnd_of_read read
  obtain ⟨first, _, close, more, left, firstRead, bodyRead, closeRead, _⟩ := read_root_cases read
  cases lines with
  | nil =>
    rw [unlines_nil, nil_append, (takes_start (levels + 4)).stop last] at firstRead
    cases firstRead
  | cons opening lines =>
    have text : unlines (opening :: lines) ++ tail =
        opening ++ '\n' :: (unlines lines ++ tail) := by
      rw [unlines_cons, append_assoc, cons_append]
    have clean := unbroken opening mem_cons_self
    have startLine := (takes_start (levels + 4)).line opening (unlines lines ++ tail) clean
    rw [← text, firstRead, map_some] at startLine
    obtain ⟨_, opens, same⟩ := map_eq_some_iff.mp startLine.symm
    obtain rfl : unlines lines ++ tail = more := (Prod.mk.inj same).2
    obtain ⟨lexemes, stop, rfl, scans⟩ := Lexer.exists_scans lexer unbroken.tail
    have all : takeMany element lexemes =
      some ((takeAll element lexemes).1, (takeAll element lexemes).2) := rfl
    obtain ⟨_, front, whole, bodyTaken, _⟩ := (reads_body levels last openEnd).of_some scans all
    rw [Lexer.text, bodyRead] at bodyTaken
    obtain ⟨_, rfl⟩ := Prod.mk.inj (some.inj bodyTaken)
    have taken : (takeAll element lexemes).2 = [] := by
      cases rest : (takeAll element lexemes).2 with
      | nil => rfl
      | cons lexeme later =>
        rw [rest] at closeRead whole
        rw [whole] at scans
        rw [read_end_token scans.drop] at closeRead
        cases closeRead
    rw [taken] at closeRead
    obtain ⟨closing, ending, split, closes, cleanClosing, ends⟩ := exists_closing closeRead
    refine ⟨opening, lexemes, closing, ending, ?_, ?_, taken, closes, ends, clean, ?_,
      cleanClosing, ?_⟩
    · cases marked : isOpening opening with
      | true => rfl
      | false => rw [marked] at opens; cases opens
    · exact fun lexeme member => knows_iff.mp (scans.known lexeme member)
    · exact fun line member => scans.unbroken line (mem_append_left _ member)
    · rw [text, ← split, Lexer.linesOf, unlines_append, append_assoc]
      rfl

theorem IsComment.read {opening : Text} {lexemes : List Lexeme} {closing ending : Text}
    (comment : IsComment text opening lexemes closing ending) (levels : Nat) :
    ∃ first body last, readRule rules (levels + 6) "block_comment" text =
        some (commentPart first body last, []) ∧
      body.Labelled elementLabels ∧ first.chars = opening ++ ['\n'] ∧
      body.view pickPiece = (takeAll element lexemes).1 ∧ last.chars = closing ++ ending := by
  have noStar := star?_of_isClosing comment.closes
  have known : ∀ lexeme ∈ lexemes, lexer.Knows lexeme :=
    fun lexeme member => knows_iff.mpr (comment.known lexeme member)
  -- The closing line is a line behind the tokens or, without a line break, the rest of the text.
  obtain ⟨stop, tail, split, scans, last, openEnd⟩ : ∃ stop tail,
      closing ++ ending = unlines stop ++ tail ∧ lexer.Scans lexemes stop ∧ '\n' ∉ tail ∧
        isFenceEnd tail = false := by
    rcases comment.ends with rfl | rfl
    · refine ⟨[], closing, by simp, ⟨known, rfl, ?_⟩, comment.cleanClosing, ?_⟩
      · rw [Lexer.linesOf, append_nil]
        exact comment.cleanBody
      · rw [isFenceEnd, noStar]
    · refine ⟨[closing], [], by simp [unlines], ⟨known, ?_, ?_⟩, not_mem_nil, rfl⟩
      · change lexeme? [closing] = none
        rw [lexeme?, token?, fence?, noStar]
        simp only [line?, noStar, map_none]
      · intro line member
        rcases mem_append.mp member with inside | here
        · exact comment.cleanBody line inside
        · rw [mem_singleton.mp here]
          exact comment.cleanClosing
  have all : takeMany element lexemes =
    some ((takeAll element lexemes).1, (takeAll element lexemes).2) := rfl
  obtain ⟨body, _, _, bodyRead, values⟩ := (reads_body levels last openEnd).of_some scans all
  obtain ⟨close, closeRead, closeChars⟩ :=
    read_closing (levels + 4) comment.closes comment.cleanClosing comment.ends
  have behind : lexer.text [] stop tail = closing ++ ending := split.symm
  have text : text = opening ++ '\n' :: lexer.text lexemes stop tail := by
    rw [comment.whole, split, Lexer.text, Lexer.linesOf, unlines_append, append_assoc]
    rfl
  have startLine :=
    (takes_start (levels + 4)).line opening (lexer.text lexemes stop tail) comment.cleanOpening
  rw [comment.opens, if_pos rfl] at startLine
  obtain ⟨⟨first, more⟩, firstRead, same⟩ := map_eq_some_iff.mp startLine
  obtain ⟨firstChars, rfl⟩ := Prod.mk.inj same
  rw [comment.taken, behind] at bodyRead
  refine ⟨first, body, close, ?_, labels_body _ bodyRead, firstChars, values, closeChars⟩
  rw [readRule_root, text]
  simp only [Reader.sequence, Reader.readAll, Reader.map, firstRead, map_some, bodyRead, closeRead]

end Reflow.Document.Block
