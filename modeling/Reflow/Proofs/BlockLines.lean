import Reflow.Document.Block.Reading
import Reflow.Proofs.Lists
import Reflow.Proofs.WithinLine

/-!
# The lines of a block comment

Every line of a body is told by itself, except inside fenced code: its star, the blanks behind it,
and what the rest opens. A token is a line, or fenced code as a whole, and `lexer` takes one off the
front of some lines.
-/

namespace Reflow.Document.Block

open Text Layout Reflow.Expr List

/-- The star of a line of a body with what stands before it, and what stands behind: a blank or
nothing comes first there. -/
def star? (line : Text) : Option (Text × Text) :=
  match stripFront? ['*'] (line.dropWhile isIndent) with
  | some rest =>
    if rest.head?.all isIndent then some (line.takeWhile isIndent ++ ['*'], rest) else none
  | none => none

/-- The words that open constructs behind an at sign. -/
def commands : List (Text × Construct) :=
  [("brief".toList, .brief), ("tparam".toList, .tparam), ("param".toList, .param),
    ("returns".toList, .returns), ("return".toList, .returns), ("code".toList, .code),
    ("note".toList, .note), ("warning".toList, .warning), ("throws".toList, .throws),
    ("see".toList, .see), ("relatedalso".toList, .relatedAlso), ("related".toList, .related)]

def kindOf? (word : Text) : Option Construct := commands.lookup word

def closingWord : Text := "endcode".toList

/-- What the text of a line opens. -/
inductive Opening where
  /-- There is no text. -/
  | nothing
  /-- A construct, with the text behind its marker. -/
  | command (kind : Construct) (text : Text)
  /-- The end of fenced code. -/
  | fenceEnd
  | row
  /-- The target of a link. -/
  | link
  /-- The label of a link that has no target. -/
  | label
  /-- A bullet item, with the text behind the bullet. -/
  | bullet (mark : Char) (text : Text)
  | prose
  deriving DecidableEq, Repr

def opening : Text → Opening
  | [] => .nothing
  | '@' :: text =>
    match kindOf? (text.takeWhile isWordChar) with
    | some kind => .command kind (text.dropWhile isWordChar)
    | none => if text.takeWhile isWordChar = closingWord then .fenceEnd else .prose
  | '|' :: _ => .row
  | '[' :: text =>
    if isLabel "]: ".toList text then .link
    else if isLabel "]:".toList text then .label
    else .prose
  | c :: ' ' :: text => if isBullet c then .bullet c text else .prose
  | _ => .prose

def takesArgument : Construct → Bool
  | .param | .tparam | .throws => true
  | _ => false

/-- The line that a marker opens, from its lead and the text behind the marker. -/
def tagLine? (kind : Construct) (lead text : Text) : Option TagLine :=
  let text := text.dropWhile isIndent
  if takesArgument kind then
    let argument := text.takeWhile (!isBlank ·)
    if argument.isEmpty then none
    else some { lead, argument, contents := (text.dropWhile (!isBlank ·)).dropWhile isIndent }
  else some { lead, contents := text }

/-- A line of a body, or fenced code. -/
inductive Token where
  | separator (line : Text)
  /-- The line that a marker opens. -/
  | header (kind : Construct) (line : TagLine)
  | code (header : TagLine) (body : List (Option Text)) (close : Text)
  | row (line : Text)
  /-- The first line of a bullet item. -/
  | bullet (item : ListItem)
  | link (line : Text)
  | text (line : TagLine)
  deriving DecidableEq, Repr

/-- The line that a marker opens, unless it opens fenced code. -/
def header? (kind : Construct) (lead text : Text) : Option Token :=
  if kind = .code then none else (tagLine? kind lead text).map (.header kind)

def line? (line : Text) : Option Token :=
  match star? line with
  | none => none
  | some (front, rest) =>
    let lead := front ++ rest.takeWhile isIndent
    let body := rest.dropWhile isIndent
    match opening body with
    | .nothing => some (.separator line)
    | .command kind text => header? kind lead text
    | .row => some (.row line)
    | .link => some (.link line)
    | .bullet mark text =>
      some (.bullet
        { breaking := lastBreak? text == some []
          head := line
          lead := front ++ rest.take 1
          indent := (rest.drop 1).takeWhile isIndent
          start := [mark, ' ']
          contents := [text] })
    | .prose => some (.text { lead, contents := body })
    | .fenceEnd | .label => none

/-- The language hint behind the marker of a fence, if nothing else stands there. -/
def fenceHint? (text : Text) : Option Text :=
  let text := text.dropWhile isIndent
  match hint? text with
  | some (hint, rest) => if (rest.dropWhile isIndent).isEmpty then some hint else none
  | none => if text.isEmpty then some [] else none

def fence? (line : Text) : Option TagLine :=
  match star? line with
  | none => none
  | some (front, rest) =>
    match opening (rest.dropWhile isIndent) with
    | .command .code text =>
      (fenceHint? text).map fun hint => { lead := front ++ rest.takeWhile isIndent, argument := hint }
    | _ => none

/-- A line between fences; a blank one has no text. -/
def fencedLine? (line : Text) : Option (Option Text) :=
  match star? line with
  | none => none
  | some (_, rest) =>
    let contents := rest.drop 1
    if contents.isEmpty then some none
    else if (stripFront? "@endcode".toList (contents.dropWhile isIndent)).isSome then none
    else some (some contents)

def isFenced (line : Text) : Bool := (fencedLine? line).isSome

def isFenceEnd (line : Text) : Bool :=
  match star? line with
  | none => false
  | some (_, rest) =>
    match stripFront? "@endcode".toList (rest.dropWhile isIndent) with
    | some more => more.all isIndent
    | none => false

/-- Takes the lines of fenced code off the front, behind the opening line. -/
def fenced? (header : TagLine) (lines : List Text) : Option (Token × List Text) :=
  match lines.dropWhile isFenced with
  | [] => none
  | close :: rest =>
    if isFenceEnd close then
      some (.code header ((lines.takeWhile isFenced).filterMap fencedLine?) (close ++ ['\n']), rest)
    else none

/-- Takes a token off the front of some lines. -/
def token? : List Text → Option (Token × List Text)
  | [] => none
  | line :: lines =>
    match fence? line with
    | some header => fenced? header lines
    | none => (line? line).map (·, lines)

/-! ## What a text opens -/

variable {word body line front rest : Text} {kind : Construct} {source : List Text}
  {token : Token}

theorem kindOf?_eq_some_iff : kindOf? word = some kind ↔ (word, kind) ∈ commands :=
  lookup_eq_some_iff_mem (by decide)

/-- A word is found as a whole where the word characters at the front of a text are that word. -/
theorem stripFront?_word (wordChars : word.all isWordChar) (text : Text) :
    (stripFront? word text).bind (fun rest => if isWordSide rest.head? then none else some rest) =
      if text.takeWhile isWordChar = word then some (text.dropWhile isWordChar) else none := by
  induction word generalizing text with
  | nil =>
    cases text with
    | nil => rfl
    | cons c text => cases inside : isWordChar c <;> simp [stripFront?, isWordSide, inside]
  | cons d word ih =>
    rw [all_cons, Bool.and_eq_true] at wordChars
    cases text with
    | nil => rfl
    | cons c text =>
      by_cases same : d = c
      · subst same
        have later := ih wordChars.2 text
        simpa [stripFront?, wordChars.1] using later
      · cases inside : isWordChar c <;> simp [stripFront?, same, Ne.symm same, inside]

/-- A marker stands where the word behind the at sign is its word. -/
theorem marks_eq {marker : String} (spelled : marker.toList = '@' :: word)
    (wordChars : word.all isWordChar) (text : Text) :
    marks marker ('@' :: text) = (text.takeWhile isWordChar == word) := by
  have found := stripFront?_word wordChars text
  have front : stripFront? ('@' :: word) ('@' :: text) = stripFront? word text := by
    simp [stripFront?]
  rw [marks, spelled, front]
  by_cases same : text.takeWhile isWordChar = word
  · rw [if_pos same] at found
    obtain ⟨rest, stripped, ends⟩ := Option.bind_eq_some_iff.mp found
    rw [stripped, beq_iff_eq.mpr same]
    cases side : isWordSide rest.head? with
    | true => simp [side] at ends
    | false => simp [side]
  · rw [if_neg same] at found
    rw [beq_false_of_ne same]
    cases stripped : stripFront? word text with
    | none => rfl
    | some rest =>
      rw [stripped, Option.bind_some] at found
      cases side : isWordSide rest.head? with
      | true => simp [side]
      | false => simp [side] at found

theorem marks_other {marker : String} (spelled : marker.toList = '@' :: word)
    (other : body.head? ≠ some '@') : marks marker body = false := by
  rw [marks, spelled]
  cases body with
  | nil => rfl
  | cons c text =>
    have different : ¬ '@' = c := fun same => other (by rw [same]; rfl)
    simp [stripFront?, different]

def markerWords : List Text := commands.map (·.1) ++ [closingWord]

theorem any_marks (text : Text) :
    (markers.any (marks · ('@' :: text))) = decide (text.takeWhile isWordChar ∈ markerWords) := by
  have word : ∀ marker ∈ markers, marks marker ('@' :: text) =
      (text.takeWhile isWordChar == marker.toList.tail) := by
    intro marker member
    have spelled : ∀ marker ∈ markers, marker.toList = '@' :: marker.toList.tail ∧
      marker.toList.tail.all isWordChar := by decide
    exact marks_eq (spelled marker member).1 (spelled marker member).2 text
  rw [Bool.eq_iff_iff, any_eq_true, decide_eq_true_iff]
  constructor
  · rintro ⟨marker, member, found⟩
    rw [word marker member, beq_iff_eq] at found
    have listed : ∀ marker ∈ markers, marker.toList.tail ∈ markerWords := by decide
    rw [found]
    exact listed marker member
  · intro member
    have listed : ∀ word ∈ markerWords, ∃ marker ∈ markers, marker.toList.tail = word := by decide
    obtain ⟨marker, among, same⟩ := listed _ member
    exact ⟨marker, among, by rw [word marker among, same, beq_self_eq_true]⟩

def Opening.isOpen : Opening → Bool
  | nothing | prose => false
  | _ => true

theorem isLabel_of_longer {text : Text} (label : isLabel "]: ".toList text) :
    isLabel "]:".toList text := by
  cases text with
  | nil => cases label
  | cons c text =>
    obtain ⟨front, back, rfl⟩ := occursIn_iff.mp label
    exact occursIn_iff.mpr ⟨front, ' ' :: back, rfl⟩

theorem isSome_kindOf? (word : Text) :
    (kindOf? word).isSome = decide (word ∈ commands.map (·.1)) := by
  rw [Bool.eq_iff_iff, Option.isSome_iff_exists, decide_eq_true_iff, mem_map]
  constructor
  · rintro ⟨kind, found⟩
    exact ⟨_, kindOf?_eq_some_iff.mp found, rfl⟩
  · rintro ⟨⟨_, kind⟩, member, rfl⟩
    exact ⟨kind, kindOf?_eq_some_iff.mpr member⟩

/-- A line opens a construct exactly if its text opens anything. -/
theorem opens_eq (body : Text) : opens body = (opening body).isOpen := by
  have noMarker : ∀ body : Text, body.head? ≠ some '@' →
      (markers.any (marks · body)) = false := by
    intro body other
    rw [any_eq_false]
    intro marker member
    have spelled : ∀ marker ∈ markers, marker.toList = '@' :: marker.toList.tail := by decide
    rw [marks_other (spelled marker member) other]
    exact Bool.false_ne_true
  unfold opening
  split
  · rfl
  · next text =>
    have bullet : startsBullet ('@' :: text) = false := by
      unfold startsBullet
      split
      · next same =>
        cases same
        rfl
      · rfl
    have known := isSome_kindOf? (text.takeWhile isWordChar)
    rw [opens, any_marks, bullet, markerWords]
    simp only [mem_append, mem_singleton]
    cases found : kindOf? (text.takeWhile isWordChar) with
    | some kind =>
      rw [found, eq_comm, Option.isSome_some, decide_eq_true_iff] at known
      simp [known, Opening.isOpen]
    | none =>
      rw [found, eq_comm, Option.isSome_none, decide_eq_false_iff_not] at known
      by_cases closing : text.takeWhile isWordChar = closingWord
      · simp [closing, Opening.isOpen]
      · simp [closing, known, startsLabel, Opening.isOpen]
  · next text =>
    rw [opens, noMarker _ (by simp)]
    rfl
  · next text =>
    have bullet : startsBullet ('[' :: text) = false := by
      unfold startsBullet
      split
      · next same =>
        cases same
        rfl
      · rfl
    rw [opens, noMarker _ (by simp), bullet]
    change (isLabel "]:".toList text || false) = _
    cases link : isLabel "]: ".toList text with
    | true =>
      rw [isLabel_of_longer link]
      rfl
    | false => cases isLabel "]:".toList text <;> rfl
  · next c text atSign bar bracket =>
    have label : startsLabel (c :: ' ' :: text) = false := by
      unfold startsLabel
      split
      · next same =>
        cases same
        exact absurd rfl bracket
      · rfl
    have noBar : ((c :: ' ' :: text).head? == some '|') = false := by
      simpa using bar
    rw [opens, noMarker _ (by simpa using atSign), label, noBar, startsBullet]
    cases isBullet c <;> rfl
  · next atSign bar bracket bullet =>
    have label : startsLabel body = false := by
      unfold startsLabel
      split
      · exact absurd rfl (bracket _)
      · rfl
    have noBullet : startsBullet body = false := by
      unfold startsBullet
      split
      · exact absurd rfl (bullet _ _)
      · rfl
    have other : ∀ c text, body = c :: text → c ≠ '@' ∧ c ≠ '|' := by
      rintro c text rfl
      constructor
      · rintro rfl
        exact atSign _ rfl
      · rintro rfl
        exact bar _ rfl
    cases body with
    | nil => rfl
    | cons c text =>
      obtain ⟨notAt, notBar⟩ := other c text rfl
      rw [opens, noMarker _ (by simpa using notAt), label, noBullet]
      simpa [Opening.isOpen] using notBar

/-- What it means for a text to open something. -/
def Opening.Of (body : Text) : Opening → Prop
  | nothing => body = []
  | command kind text => ∃ rest, body = '@' :: rest ∧
      (rest.takeWhile isWordChar, kind) ∈ commands ∧ text = rest.dropWhile isWordChar
  | fenceEnd => ∃ rest, body = '@' :: rest ∧ rest.takeWhile isWordChar = closingWord
  | row => ∃ text, body = '|' :: text
  | link => isLink body = true
  | label => isLink body = false ∧ startsLabel body = true
  | bullet mark text => body = mark :: ' ' :: text ∧ isBullet mark = true
  | prose => body ≠ [] ∧ opens body = false

theorem of_opening (body : Text) : (opening body).Of body := by
  have quiet := opens_eq body
  revert quiet
  unfold opening
  split
  · exact fun _ => rfl
  · next rest =>
    split
    · next kind known => exact fun _ => ⟨rest, rfl, kindOf?_eq_some_iff.mp known, rfl⟩
    · split
      · next closing => exact fun _ => ⟨rest, rfl, closing⟩
      · exact fun quiet => ⟨cons_ne_nil _ _, quiet⟩
  · exact fun _ => ⟨_, rfl⟩
  · next text =>
    split
    · next link => exact fun _ => link
    · next noLink =>
      split
      · next label => exact fun _ => ⟨Bool.eq_false_iff.mpr noLink, label⟩
      · exact fun quiet => ⟨cons_ne_nil _ _, quiet⟩
  · split
    · next bullet => exact fun _ => ⟨rfl, bullet⟩
    · exact fun quiet => ⟨cons_ne_nil _ _, quiet⟩
  · next someChar _ _ _ _ => exact fun quiet => ⟨someChar, quiet⟩

theorem opening_eq_iff {opened : Opening} : opening body = opened ↔ opened.Of body := by
  constructor
  · rintro rfl
    exact of_opening body
  · intro ofBody
    cases opened with
    | nothing =>
      obtain rfl := ofBody
      rfl
    | command kind text =>
      obtain ⟨rest, rfl, known, rfl⟩ := ofBody
      rw [opening, kindOf?_eq_some_iff.mpr known]
    | fenceEnd =>
      obtain ⟨rest, rfl, closing⟩ := ofBody
      rw [opening, closing]
      rfl
    | row =>
      obtain ⟨text, rfl⟩ := ofBody
      rfl
    | link =>
      obtain ⟨text, rfl⟩ : ∃ text, body = '[' :: text := by
        change isLink body at ofBody
        unfold isLink at ofBody
        split at ofBody
        · exact ⟨_, rfl⟩
        · cases ofBody
      exact if_pos ofBody
    | label =>
      obtain ⟨noLink, label⟩ := ofBody
      obtain ⟨text, rfl⟩ : ∃ text, body = '[' :: text := by
        unfold startsLabel at label
        split at label
        · exact ⟨_, rfl⟩
        · cases label
      exact (if_neg (Bool.eq_false_iff.mp noLink)).trans (if_pos label)
    | bullet mark text =>
      obtain ⟨rfl, bullet⟩ := ofBody
      have marks : mark = '+' ∨ mark = '-' ∨ mark = '*' := by
        simpa [isBullet, or_assoc] using bullet
      rcases marks with rfl | rfl | rfl <;> rfl
    | prose =>
      obtain ⟨someChar, quiet⟩ := ofBody
      rw [opens_eq] at quiet
      have ofOwn := of_opening body
      cases opened : opening body with
      | prose => rfl
      | nothing =>
        rw [opened] at ofOwn
        exact absurd ofOwn someChar
      | _ =>
        rw [opened] at quiet
        cases quiet

theorem isEmpty_eq_opening (body : Text) : body.isEmpty = (opening body == .nothing) := by
  rw [Bool.eq_iff_iff, List.isEmpty_iff, beq_iff_eq, opening_eq_iff, Opening.Of]

theorem unbroken_of_command {text : Text} (opened : opening body = .command kind text)
    (unbroken : '\n' ∉ body) : '\n' ∉ text := by
  obtain ⟨rest, rfl, _, rfl⟩ := opening_eq_iff.mp opened
  exact not_mem_dropWhile isWordChar fun member => unbroken (mem_cons_of_mem _ member)

/-! ## Lines -/

section Found

variable (found : star? line = some (front, rest))

include found

theorem star?_split : line = front ++ rest := by
  have whole : line.takeWhile isIndent ++ line.dropWhile isIndent = line :=
    takeWhile_append_dropWhile
  unfold star? at found
  split at found
  · next more stripped =>
    split at found
    · cases found
      rw [stripFront?_eq_some.mp stripped] at whole
      rw [append_assoc, whole]
    · cases found
  · cases found

theorem head_of_star? : rest.head?.all isIndent := by
  unfold star? at found
  split at found
  · split at found
    · next blank =>
      cases found
      exact blank
    · cases found
  · cases found

/-- The blank right behind a star is one of the blanks behind it. -/
theorem dropWhile_drop_of_star? : (rest.drop 1).dropWhile isIndent = rest.dropWhile isIndent := by
  have blank := head_of_star? found
  cases rest with
  | nil => rfl
  | cons c rest =>
    have indent : isIndent c := blank
    rw [dropWhile_cons_of_pos indent]
    rfl

theorem unbroken_of_star? (unbroken : '\n' ∉ line) :
    '\n' ∉ rest := by
  rw [star?_split found] at unbroken
  exact fun member => unbroken (mem_append_right _ member)

end Found

theorem line?_of_fence? {header : TagLine} (found : fence? line = some header) :
    line? line = none := by
  unfold fence? at found
  unfold line?
  cases star : star? line with
  | none => rfl
  | some pair =>
    obtain ⟨front, rest⟩ := pair
    rw [star] at found
    dsimp only at found ⊢
    split at found
    · next opens => rw [opens]; rfl
    · cases found

theorem header?_bind {γ : Type} {value? : Token → Option γ}
    (other : ∀ line, value? (.header kind line) = none) (lead text : Text) :
    (header? kind lead text).bind value? = none := by
  rw [header?]
  split
  · rfl
  · cases tagLine? kind lead text with
    | none => rfl
    | some line => exact other line

/-! ## Tokens -/

/-- A line that closes fenced code does not stand between fences. -/
theorem isFenced_of_isFenceEnd (ends : isFenceEnd line) : isFenced line = false := by
  unfold isFenceEnd at ends
  unfold isFenced fencedLine?
  cases star : star? line with
  | none => rfl
  | some pair =>
    obtain ⟨front, rest⟩ := pair
    rw [star] at ends
    dsimp only at ends ⊢
    cases found : stripFront? "@endcode".toList (rest.dropWhile isIndent) with
    | none =>
      rw [found] at ends
      cases ends
    | some more =>
      have same := dropWhile_drop_of_star? star
      have text : (rest.drop 1).isEmpty = false := by
        rw [← Bool.not_eq_true, List.isEmpty_iff]
        intro empty
        rw [empty] at same
        rw [← same] at found
        cases found
      rw [text, same, found]
      rfl

/-- A token is told by its own lines: one line by itself, or a fence, lines between fences and a
closing line. -/
inductive IsToken : List Text → Token → Prop
  | line {line : Text} {token : Token} (found : line? line = some token) :
      IsToken [line] token
  | code {first close : Text} {header : TagLine} {body : List Text}
      (opens : fence? first = some header) (inner : ∀ line ∈ body, isFenced line)
      (ends : isFenceEnd close) :
      IsToken (first :: (body ++ [close]))
        (.code header (body.filterMap fencedLine?) (close ++ ['\n']))

theorem IsToken.token?_eq (known : IsToken source token) (other : List Text) :
    token? (source ++ other) = some (token, other) := by
  cases known with
  | line found =>
    rename_i line
    have noFence : fence? line = none := by
      cases fence : fence? line with
      | none => rfl
      | some header =>
        rw [line?_of_fence? fence] at found
        cases found
    rw [singleton_append, token?, noFence]
    simp only [found, Option.map_some]
  | code opens inner ends =>
    rename_i first close header body
    have refused := isFenced_of_isFenceEnd ends
    have lines : (body ++ [close]) ++ other = body ++ close :: other := by simp
    rw [cons_append, lines, token?, opens]
    simp only [fenced?, takeWhile_append_of_pos inner, dropWhile_append_of_pos inner]
    simp [refused, ends]

/-- What is taken off some lines is a token. -/
theorem isToken_of_token? {lines more : List Text} (found : token? lines = some (token, more)) :
    ∃ source, IsToken source token ∧ lines = source ++ more := by
  cases lines with
  | nil => cases found
  | cons line lines =>
    rw [token?] at found
    split at found
    · next header opens =>
      have whole : lines.takeWhile isFenced ++ lines.dropWhile isFenced = lines :=
        takeWhile_append_dropWhile
      rw [fenced?] at found
      split at found
      · cases found
      · next close rest tail =>
        split at found
        · next ends =>
          cases found
          rw [tail] at whole
          refine ⟨_, .code opens (all_eq_true.mp all_takeWhile) ends, ?_⟩
          rw [cons_append, append_assoc, singleton_append, whole]
        · cases found
    · obtain ⟨_, known, same⟩ := Option.map_eq_some_iff.mp found
      cases same
      exact ⟨[line], .line known, rfl⟩

theorem IsToken.source_ne_nil (known : IsToken source token) : source ≠ [] := by
  cases known <;> exact cons_ne_nil _ _

structure Lexeme where
  source : List Text
  token : Token

/-- Takes a token with its lines off the front of some lines. -/
def lexeme? (lines : List Text) : Option (Lexeme × List Text) :=
  (token? lines).map fun (token, more) => (⟨lines.take (lines.length - more.length), token⟩, more)

theorem IsToken.lexeme?_eq (known : IsToken source token) (other : List Text) :
    lexeme? (source ++ other) = some (⟨source, token⟩, other) := by
  have front : (source ++ other).take ((source ++ other).length - other.length) = source := by
    rw [length_append, Nat.add_sub_cancel, take_left]
  rw [lexeme?, known.token?_eq other]
  simp only [Option.map_some, front]

theorem isToken_of_lexeme? {lines more : List Text} {lexeme : Lexeme}
    (found : lexeme? lines = some (lexeme, more)) :
    IsToken lexeme.source lexeme.token ∧ lines = lexeme.source ++ more := by
  obtain ⟨⟨token, rest⟩, taken, _⟩ := Option.map_eq_some_iff.mp found
  obtain ⟨source, known, rfl⟩ := isToken_of_token? taken
  rw [known.lexeme?_eq] at found
  cases found
  exact ⟨known, rfl⟩

def lexer : Lexer Lexeme where
  next? := lexeme?
  source := Lexeme.source
  advances := fun found =>
    ⟨(isToken_of_lexeme? found).1.source_ne_nil, (isToken_of_lexeme? found).2⟩
  steady := fun found other => (isToken_of_lexeme? found).1.lexeme?_eq other

/-- A lexer knows the lexemes that are tokens with their lines. -/
theorem knows_iff {lexeme : Lexeme} :
    lexer.Knows lexeme ↔ IsToken lexeme.source lexeme.token := by
  constructor
  · intro known
    exact (isToken_of_lexeme? (known [])).1
  · intro token other
    exact token.lexeme?_eq other

end Reflow.Document.Block
