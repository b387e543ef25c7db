import Reflow.Proofs.OpeningPatterns
import Reflow.Proofs.TokenReading

/-!
# Reading within a line

A reader that stays within a line reads of a line in a text what it reads of the line alone. Most
patterns do, and so do sequences, choices, captures and checks made of such readers. A sequence of
them with a line break at its end reads whole lines (`Reader.Stays.read_line`).
-/

namespace Reflow

open Text Document List Reader Pattern

variable {γ : Type} {readers : List Reader} {look : Part → List γ} {reader : Reader}

/-- A reader reads of the first line of a text what it reads of that line alone. -/
structure Reader.Stays (reader : Reader) : Prop where
  splits : reader.Splits
  within : ∀ {line : Text} (rest : Text), '\n' ∉ line →
    reader (line ++ '\n' :: rest) = (reader line).map fun (part, left) => (part, left ++ '\n' :: rest)

variable {line : Text} {value? other? : Text → Option (List γ)}

namespace Reader

theorem Splits.unbroken (splits : reader.Splits) {left : Text} {part : Part}
    (unbroken : '\n' ∉ line) (found : reader line = some (part, left)) : '\n' ∉ left := by
  rw [splits.split found] at unbroken
  exact fun member => unbroken (mem_append_right _ member)

section Each

variable (each : ∀ reader ∈ readers, reader.Stays)

include each

theorem Stays.readAll (rest : Text)
    (unbroken : '\n' ∉ line) :
    readAll readers (line ++ '\n' :: rest) =
      (readAll readers line).map fun (parts, left) => (parts, left ++ '\n' :: rest) := by
  induction readers generalizing line with
  | nil => rfl
  | cons reader readers ih =>
    have stays := each reader mem_cons_self
    rw [readAll, readAll, stays.within rest unbroken]
    cases found : reader line with
    | none => rfl
    | some read =>
      obtain ⟨part, left⟩ := read
      have later := ih (forall_mem_cons.mp each).2
        (stays.splits.unbroken unbroken found)
      simp only [Option.map_some, later]
      cases readAll readers left <;> rfl

theorem Stays.sequence : (sequence readers).Stays where
  splits := Splits.sequence fun reader member => (each reader member).splits
  within := by
    intro line rest unbroken
    rw [Reader.sequence, Stays.readAll each rest unbroken, Reader.sequence]
    cases Reader.readAll readers line <;> rfl

theorem Stays.choice : (choice readers).Stays where
  splits := Splits.choice fun reader member => (each reader member).splits
  within := by
    intro line rest unbroken
    induction readers with
    | nil => rfl
    | cons reader readers ih =>
      have stays := each reader mem_cons_self
      rw [Reader.choice, Reader.choice, stays.within rest unbroken]
      cases reader line with
      | none => exact ih (forall_mem_cons.mp each).2
      | some read => rfl

end Each

theorem Stays.map (stays : reader.Stays) {change : Part → Part}
    (same : ∀ part, (change part).chars = part.chars) : (map change reader).Stays where
  splits := stays.splits.map same
  within := by
    intro line rest unbroken
    rw [Reader.map, Reader.map, stays.within rest unbroken]
    cases reader line <;> rfl

/-- A check looks only at whether something can be read. -/
theorem stays_lookahead (positive : Bool)
    (same : ∀ {line : Text} (rest : Text), '\n' ∉ line →
      (reader (line ++ '\n' :: rest)).isSome = (reader line).isSome) :
    (lookahead reader positive).Stays where
  splits := splits_lookahead reader positive
  within := by
    intro line rest unbroken
    rw [lookahead, lookahead, same rest unbroken]
    split <;> rfl

theorem stays_literal {text : String} (unbroken : '\n' ∉ text.toList) :
    (literal text).Stays where
  splits := splits_literal text
  within := by
    intro line rest _
    rw [literal, literal, stripFront?_atEnd unbroken (atEnd_newline rest)]
    cases stripFront? text.toList line <;> rfl

theorem readAll_append (first second : List Reader) (input : Text) :
    readAll (first ++ second) input =
      (readAll first input).bind fun (parts, rest) =>
        (readAll second rest).map fun (others, stop) => (parts ++ others, stop) := by
  induction first generalizing input with
  | nil => simp [readAll]
  | cons reader first ih =>
    rw [cons_append, readAll, readAll]
    cases reader input with
    | none => rfl
    | some read =>
      obtain ⟨part, rest⟩ := read
      simp only [ih]
      cases readAll first rest with
      | none => rfl
      | some read =>
        obtain ⟨parts, stop⟩ := read
        cases behind : readAll second stop <;> simp [behind]

/-- A reader takes the line break at the end of a line, and nothing before it. -/
def EndsLine (last : Reader) : Prop := ∀ {left : Text} (rest : Text), '\n' ∉ left →
  last (left ++ '\n' :: rest) = if left.isEmpty then some (.text ['\n'], rest) else none

theorem endsLine_newline : EndsLine (literal "\n") := by
  intro left rest unbroken
  cases left with
  | nil => rfl
  | cons c left =>
    have other : ¬ '\n' = c := fun same => unbroken (same ▸ mem_cons_self)
    simp [literal, stripFront?, other]

theorem read_lineEnd (rule : String → Reader) (input : Text) :
    Expr.lineEnd.read rule input =
      match input with
      | [] => some (.nil, [])
      | c :: rest => if c = '\n' then some (.text ['\n'], rest) else none := by
  rw [Expr.lineEnd, Expr.read_choice, Expr.readEach_cons, Expr.readEach_cons, Expr.readEach_nil,
    Expr.read_literal, Expr.eof, Expr.notAhead, Expr.read_lookahead, choice, choice,
    choice, lookahead, Expr.isSome_read_any]
  cases input with
  | nil => rfl
  | cons c rest =>
    by_cases same : c = '\n'
    · simp [literal, stripFront?, same]
    · have other : ¬ '\n' = c := Ne.symm same
      simp [literal, stripFront?, same, other]

theorem endsLine_lineEnd (rule : String → Reader) : EndsLine (Expr.lineEnd.read rule) := by
  intro left rest unbroken
  rw [read_lineEnd]
  cases left with
  | nil => rfl
  | cons c left =>
    have other : ¬ c = '\n' := fun same => unbroken (same ▸ mem_cons_self)
    simp [other]

/-- What is made of a text that readers read to its end. -/
def whole? {γ : Type} (readers : List Reader) (make : List Part → γ) (text : Text) : Option γ :=
  (readAll readers text).bind fun (parts, left) =>
    if left.isEmpty then some (make parts) else none

theorem whole?_nil (make : List Part → γ) (text : Text) :
    whole? [] make text = if text.isEmpty then some (make []) else none :=
  rfl

theorem whole?_cons (make : List Part → γ) (text : Text) :
    whole? (reader :: readers) make text =
      (reader text).bind fun (part, rest) =>
        whole? readers (fun parts => make (part :: parts)) rest := by
  rw [whole?, readAll]
  cases reader text with
  | none => rfl
  | some read =>
    obtain ⟨part, rest⟩ := read
    simp only [Option.bind_some, whole?]
    cases readAll readers rest <;> rfl

section Each

variable (each : ∀ reader ∈ readers, reader.Stays)

include each

/-- Readers that stay within a line read, in front of a line break, all of a line or nothing. -/
theorem Stays.read_line {last : Reader}
    (ends : EndsLine last) (rest : Text) (unbroken : '\n' ∉ line) :
    Reader.sequence (readers ++ [last]) (line ++ '\n' :: rest) =
      whole? readers (fun parts => (.list (parts ++ [.text ['\n']]), rest)) line := by
  rw [Reader.sequence, readAll_append, Stays.readAll each rest unbroken, whole?]
  cases found : Reader.readAll readers line with
  | none => rfl
  | some read =>
    obtain ⟨parts, left⟩ := read
    have clean : '\n' ∉ left := by
      intro member
      apply unbroken
      rw [Splits.readAll (fun reader member => (each reader member).splits) found]
      exact mem_append_right _ member
    simp only [Option.map_some, Option.bind_some, Reader.readAll, ends rest clean]
    cases left <;> rfl

/-- Nothing is read of a text without a line break if the last reader refuses what is left of it. -/
theorem sequence_stop {last : Reader} {tail : Text}
    (unbroken : '\n' ∉ tail)
    (refuses : ∀ parts left, readAll readers tail = some (parts, left) → '\n' ∉ left →
      last left = none) : sequence (readers ++ [last]) tail = none := by
  rw [sequence, readAll_append]
  cases found : readAll readers tail with
  | none => rfl
  | some read =>
    obtain ⟨parts, left⟩ := read
    have whole := Splits.readAll (fun reader member => (each reader member).splits) found
    have refused := refuses parts left found fun member =>
      unbroken (whole ▸ mem_append_right _ member)
    simp only [Option.bind_some, readAll, refused, Option.map_none]

/-- A line break cannot be read where there is none. -/
theorem sequence_newline_stop {tail : Text}
    (last : '\n' ∉ tail) : sequence (readers ++ [literal "\n"]) tail = none := by
  refine sequence_stop each last fun _ left _ clean => ?_
  cases left with
  | nil => rfl
  | cons c left =>
    have other : ¬ '\n' = c := fun same => clean (same ▸ mem_cons_self)
    simp [literal, stripFront?, other]

/-- Where there is no line break, a line ends only where the text ends. -/
theorem sequence_lineEnd_stop (rule : String → Reader)
    {tail : Text} (last : '\n' ∉ tail) {make : List Part → γ}
    (refused : whole? readers make tail = none) :
    sequence (readers ++ [Expr.lineEnd.read rule]) tail = none := by
  refine sequence_stop each last fun _ left found clean => ?_
  cases left with
  | nil =>
    rw [whole?, found] at refused
    cases refused
  | cons c left =>
    have other : ¬ c = '\n' := fun same => clean (same ▸ mem_cons_self)
    rw [read_lineEnd]
    exact if_neg other

end Each

end Reader

/-! ## Whole lines -/

/-- Readers that stay within a line, in front of a line break, take a line that they read to its
end. -/
theorem Reader.Stays.takes_line (each : ∀ reader ∈ readers, reader.Stays) {last : Reader}
    (ends : Reader.EndsLine last) (agree : ∀ line, '\n' ∉ line → value? line =
      whole? readers (fun parts => look (.list (parts ++ [.text ['\n']]))) line)
    (line rest : Text) (unbroken : '\n' ∉ line) :
    (Reader.sequence (readers ++ [last]) (line ++ '\n' :: rest)).map
        (fun (part, rest) => (look part, rest)) = (value? line).map (·, rest) := by
  rw [Reader.Stays.read_line each ends rest unbroken, agree line unbroken, whole?, whole?]
  cases Reader.readAll readers line with
  | none => rfl
  | some read =>
    obtain ⟨parts, left⟩ := read
    cases left <;> rfl

theorem TakesLine.of_newline (each : ∀ reader ∈ readers, reader.Stays)
    (agree : ∀ line, '\n' ∉ line → value? line =
      whole? readers (fun parts => look (.list (parts ++ [.text ['\n']]))) line) :
    TakesLine (.sequence (readers ++ [.literal "\n"])) look value? where
  line := Reader.Stays.takes_line each endsLine_newline agree
  stop := sequence_newline_stop each

theorem TakesLine.capture {outer : Part → List γ} {label : String}
    (takes : TakesLine reader look value?) (seen : ∀ part, outer (.field label part) = look part) :
    TakesLine (reader.map (.field label)) outer value? where
  line := by
    intro line rest unbroken
    rw [← takes.line line rest unbroken, Reader.map]
    cases reader (line ++ '\n' :: rest) with
    | none => rfl
    | some read => simp [seen]
  stop := by
    intro tail last
    rw [Reader.map, takes.stop last, Option.map_none]

theorem TakesLine.or {first second : Reader} (takes : TakesLine first look value?)
    (takesSecond : TakesLine second look other?) :
    TakesLine (.choice [first, second]) look (fun line => (value? line).or (other? line)) where
  line := by
    intro line rest unbroken
    have here := takes.line line rest unbroken
    have there := takesSecond.line line rest unbroken
    rw [choice, choice, choice]
    cases found : first (line ++ '\n' :: rest) with
    | some read =>
      rw [found] at here
      obtain ⟨values, same, _⟩ := Option.map_eq_some_iff.mp here.symm
      rw [same] at here ⊢
      exact here
    | none =>
      rw [found, Option.map_none] at here
      rw [Option.map_eq_none_iff.mp here.symm, Option.none_or, ← there]
      cases second (line ++ '\n' :: rest) <;> rfl
  stop := by
    intro tail last
    rw [choice, choice, choice, takes.stop last, takesSecond.stop last]

theorem TakesLine.congr (takes : TakesLine reader look value?)
    (same : ∀ line, other? line = value? line) : TakesLine reader look other? := by
  obtain rfl : other? = value? := funext same
  exact takes

/-- The text of a part that was read from a line is the line. -/
theorem chars_of_line (each : ∀ reader ∈ readers, reader.Stays) {parts : List Part}
    (found : readAll readers line = some (parts, [])) :
    Part.chars (.list (parts ++ [.text ['\n']])) = line ++ ['\n'] := by
  have whole := Reader.Splits.readAll (fun reader member => (each reader member).splits) found
  rw [append_nil, Part.charsAll_eq_flatMap] at whole
  rw [Part.joins_chars, flatMap_append, ← whole, flatMap_singleton, Part.chars]

/-- A line that is taken has its own text. -/
theorem agree_of_line (each : ∀ reader ∈ readers, reader.Stays) (make : Text → List γ)
    (seen : ∀ part, look part = make part.chars) {value : Option (List γ)}
    (agree : value = whole? readers (fun _ => make (line ++ ['\n'])) line) :
    value = whole? readers (fun parts => look (.list (parts ++ [.text ['\n']]))) line := by
  rw [agree, whole?, whole?]
  cases found : readAll readers line with
  | none => rfl
  | some read =>
    obtain ⟨parts, left⟩ := read
    cases left with
    | nil => simp [seen, chars_of_line each found, -Part.chars]
    | cons c left => rfl

theorem stays_field (stays : reader.Stays) (label : String) : (reader.map (.field label)).Stays :=
  stays.map fun _ => by rw [Part.chars]

/-- A reader takes what is left of a line, if that passes a test. -/
def Reader.TakesRest (reader : Reader) (test : Text → Bool) : Prop :=
  ∀ ⦃line after : Text⦄, '\n' ∉ line → AtEnd after →
    reader (line ++ after) = if test line then some (.text line, after) else none

theorem Reader.TakesRest.alone {test : Text → Bool} (takes : reader.TakesRest test)
    (unbroken : '\n' ∉ line) : reader line = if test line then some (.text line, []) else none := by
  have whole := takes unbroken atEnd_nil
  rwa [append_nil] at whole

theorem Reader.TakesRest.stays {test : Text → Bool} (takes : reader.TakesRest test)
    (splits : reader.Splits) : reader.Stays where
  splits := splits
  within := by
    intro line rest unbroken
    rw [takes unbroken (atEnd_newline rest), takes.alone unbroken]
    split <;> rfl

/-! ## Expressions within a line -/

namespace Expr

/-- What expressions read stays within a line. -/
def AllStay (rule : String → Reader) : List Expr → Prop
  | [] => True
  | first :: rest => (first.read rule).Stays ∧ AllStay rule rest

theorem AllStay.each {rule : String → Reader} {exprs : List Expr} (stay : AllStay rule exprs) :
    ∀ reader ∈ readEach rule exprs, reader.Stays := by
  induction exprs with
  | nil => exact fun _ member => absurd member not_mem_nil
  | cons first rest ih => exact forall_mem_cons.mpr ⟨stay.1, ih stay.2⟩

theorem readEach_append (rule : String → Reader) (first second : List Expr) :
    readEach rule (first ++ second) = readEach rule first ++ readEach rule second := by
  induction first with
  | nil => rfl
  | cons expr first ih => rw [cons_append, readEach_cons, ih, readEach_cons, cons_append]

end Expr

section Lines

variable {γ : Type} {rule : String → Reader} {exprs : List Expr} {label : String}
  {look inner : Part → List γ} {value? : Text → Option (List γ)}
  (stay : Expr.AllStay rule exprs)

include stay

/-- A captured line is read as its expressions read it. -/
theorem TakesLine.of_captured (seen : ∀ part, look (.field label part) = inner part)
    (agree : ∀ line, '\n' ∉ line → value? line = whole? (Expr.readEach rule exprs)
      (fun parts => inner (.list (parts ++ [.text ['\n']]))) line) :
    TakesLine ((Expr.capture (.sequence (exprs ++ [.literal "\n"])) label).read rule) look
      value? := by
  rw [Expr.read_capture, Expr.read_sequence, Expr.readEach_append]
  exact (TakesLine.of_newline stay.each agree).capture seen

/-- A line of which only the text counts is read if its expressions read all of it. -/
theorem TakesLine.of_text (make : Text → List γ) (seen : ∀ part, look part = make part.chars)
    (agree : ∀ line, '\n' ∉ line → value? line =
      whole? (Expr.readEach rule exprs) (fun _ => make (line ++ ['\n'])) line) :
    TakesLine ((Expr.sequence (exprs ++ [.literal "\n"])).read rule) look value? := by
  rw [Expr.read_sequence, Expr.readEach_append]
  exact TakesLine.of_newline stay.each fun line unbroken =>
    agree_of_line stay.each make seen (agree line unbroken)

end Lines

/-! ## Patterns -/

namespace Expr

variable (rule : String → Reader)

theorem splits_regex (pattern : String) : ((regex pattern).read rule).Splits := by
  rw [read]
  cases Regex.anchored? pattern with
  | none => exact splits_none
  | some machine => exact splits_machine machine

theorem stays_indentation : ((regex indentation).read rule).Stays where
  splits := splits_regex rule _
  within := by
    intro line rest _
    rw [read_indentation, read_indentation, takeWhile_line isIndent rfl, dropWhile_line isIndent rfl]
    rfl

theorem stays_blanks : ((regex blanks).read rule).Stays where
  splits := splits_regex rule _
  within := by
    intro line rest _
    rw [read_blanks, read_blanks, takeWhile_line isIndent rfl, dropWhile_line isIndent rfl]
    split <;> rfl

theorem stays_blank : ((regex "[\\t ]").read rule).Stays where
  splits := splits_regex rule _
  within := by
    intro line rest _
    rw [read_blank, read_blank]
    cases line with
    | nil => rfl
    | cons c line => cases indent : isIndent c <;> simp [indent]

theorem takesRest_restOfLine : ((regex restOfLine).read rule).TakesRest fun _ => true := by
  intro line after unbroken ends
  rw [read_restOfLine, takeWhile_rest unbroken ends, dropWhile_rest unbroken ends]
  rfl

theorem read_rest_alone (unbroken : '\n' ∉ line) :
    (regex restOfLine).read rule line = some (.text line, []) :=
  (takesRest_restOfLine rule).alone unbroken

theorem takesRest_nonEmptyRest : ((regex nonEmptyRest).read rule).TakesRest (!·.isEmpty) := by
  intro line after unbroken ends
  rw [read_nonEmptyRest, takeWhile_rest unbroken ends, dropWhile_rest unbroken ends]
  cases line <;> rfl

theorem stays_restOfLine : ((regex restOfLine).read rule).Stays :=
  (takesRest_restOfLine rule).stays (splits_regex rule _)

theorem stays_nonEmptyRest : ((regex nonEmptyRest).read rule).Stays :=
  (takesRest_nonEmptyRest rule).stays (splits_regex rule _)

theorem stays_expression : ((regex expression).read rule).Stays where
  splits := splits_regex rule _
  within := by
    intro line rest _
    rw [read_expression, read_expression, takeWhile_line (!isBlank ·) rfl,
      dropWhile_line (!isBlank ·) rfl]
    split <;> rfl

theorem stays_bullet : ((regex bullet).read rule).Stays where
  splits := splits_regex rule _
  within := by
    intro line rest _
    rw [read_bullet, read_bullet]
    cases line with
    | nil => rfl
    | cons c line =>
      rw [cons_append, bullet?, bullet?, stripFront?_atEnd (by decide) (atEnd_newline rest)]
      cases isBullet c with
      | false => rfl
      | true => cases stripFront? [' '] line <;> rfl

theorem stays_star : ((regex "[\\t ]*\\*").read rule).Stays where
  splits := splits_regex rule _
  within := by
    intro line rest _
    rw [read_star, read_star, takeWhile_line isIndent rfl, dropWhile_line isIndent rfl,
      stripFront?_atEnd (by decide) (atEnd_newline rest)]
    cases stripFront? ['*'] (line.dropWhile isIndent) <;> rfl

theorem stays_atLineEnd : (atLineEnd.read rule).Stays where
  splits := by
    rw [atLineEnd, read_choice, eof, notAhead]
    refine Reader.Splits.choice fun reader member => ?_
    simp only [readEach_cons, readEach_nil, read_lookahead, mem_cons, not_mem_nil,
      or_false] at member
    rcases member with rfl | rfl <;> exact splits_lookahead _ _
  within := by
    intro line rest unbroken
    rw [read_atLineEnd, read_atLineEnd]
    cases line with
    | nil => rfl
    | cons c line =>
      have other : c ≠ '\n' := fun same => unbroken (same ▸ mem_cons_self)
      simp [other]

theorem stays_notWord : ((notAhead (regex "\\w")).read rule).Stays := by
  rw [notAhead, read_lookahead]
  refine stays_lookahead false fun {line} rest _ => ?_
  rw [isSome_read_word, isSome_read_word]
  cases line <;> rfl

theorem read_notWord (input : Text) :
    (notAhead (regex "\\w")).read rule input =
      if isWordSide input.head? then none else some (.nil, input) := by
  rw [notAhead, read_lookahead, Reader.lookahead, isSome_read_word]
  cases input with
  | nil => rfl
  | cons c rest => cases inside : isWordChar c <;> simp [isWordSide, inside]

theorem stays_notOpening : ((notAhead (regex tagStart)).read rule).Stays := by
  rw [notAhead, read_lookahead]
  refine stays_lookahead false fun {line} rest unbroken => ?_
  have alone := isSome_read_tagStart rule unbroken atEnd_nil
  rw [append_nil] at alone
  rw [isSome_read_tagStart rule unbroken (atEnd_newline rest), alone]

theorem read_notOpening (unbroken : '\n' ∉ line) :
    (notAhead (regex tagStart)).read rule line =
      if opens (line.dropWhile isIndent) then none else some (.nil, line) := by
  have alone := isSome_read_tagStart rule unbroken atEnd_nil
  rw [append_nil] at alone
  rw [notAhead, read_lookahead, Reader.lookahead, alone]
  cases opens (line.dropWhile isIndent) <;> rfl

theorem stays_notEndcode : ((notAhead (regex "[\\t ]*@endcode")).read rule).Stays := by
  rw [notAhead, read_lookahead]
  refine stays_lookahead false fun {line} rest unbroken => ?_
  rw [isSome_read_endcode, isSome_read_endcode, dropWhile_line isIndent rfl,
    stripFront?_atEnd (by decide) (atEnd_newline rest), Option.isSome_map]

theorem stays_link : ((regex "\\[.+\\]: .*").read rule).Stays where
  splits := splits_regex rule _
  within := by
    intro line rest unbroken
    have alone := read_link rule unbroken atEnd_nil
    rw [append_nil] at alone
    rw [read_link rule unbroken (atEnd_newline rest), alone]
    split <;> rfl

theorem stays_openMark : ((regex "[\\t ]*/\\*\\*?").read rule).Stays where
  splits := splits_regex rule _
  within := by
    intro line rest _
    rw [read_openMark, read_openMark, takeWhile_line isIndent rfl, dropWhile_line isIndent rfl,
      openMark?, openMark?, stripFront?_atEnd (by decide) (atEnd_newline rest)]
    cases stripFront? ['/', '*'] (line.dropWhile isIndent) with
    | none => rfl
    | some more =>
      cases more with
      | nil => rfl
      | cons c more =>
        by_cases star : c = '*'
        · subst star
          rfl
        · simp [star]

theorem stays_closeMark : ((regex "[\\t ]*\\*\\*?/").read rule).Stays where
  splits := splits_regex rule _
  within := by
    intro line rest _
    rw [read_closeMark, read_closeMark, takeWhile_line isIndent rfl, dropWhile_line isIndent rfl,
      closeMark?, closeMark?, stripFront?_atEnd (by decide) (atEnd_newline rest)]
    cases stripFront? ['*'] (line.dropWhile isIndent) with
    | none => rfl
    | some more =>
      cases more with
      | nil => rfl
      | cons c more =>
        by_cases slash : c = '/'
        · subst slash
          rfl
        · by_cases star : c = '*'
          · subst star
            cases more with
            | nil => rfl
            | cons d more =>
              by_cases close : d = '/'
              · subst close
                rfl
              · simp [close]
          · simp [star, slash]

theorem stays_lineBreak : ((regex ".*<br>").read rule).Stays where
  splits := splits_regex rule _
  within := by
    intro line rest unbroken
    have alone := read_lineBreak rule unbroken atEnd_nil
    rw [append_nil] at alone
    rw [read_lineBreak rule unbroken (atEnd_newline rest), alone, Option.map_map]
    congr 1
    funext left
    simp

theorem hint?_line (line rest : Text) :
    hint? (line ++ '\n' :: rest) =
      (hint? line).map fun (taken, left) => (taken, left ++ '\n' :: rest) := by
  match line with
  | [] => rfl
  | [c] =>
    by_cases brace : c = '\x7b'
    · subst brace
      rfl
    · simp [hint?, brace]
  | c :: d :: line =>
    by_cases brace : c = '\x7b'
    · subst brace
      simp only [cons_append, hint?, takeWhile_line (fun d => d != '\x7d' && d != '\n') rfl,
        dropWhile_line (fun d => d != '\x7d' && d != '\n') rfl]
      by_cases breaks : d = '\n'
      · simp [breaks]
      · rw [if_neg breaks, if_neg breaks]
        cases line.dropWhile (fun d => d != '\x7d' && d != '\n') with
        | nil => rfl
        | cons e more =>
          by_cases close : e = '\x7d'
          · subst close
            rfl
          · simp [close]
    · simp [hint?, brace]

theorem read_optional (reader : Reader) (input : Text)
    (moves : ∀ part rest, reader input = some (part, rest) → part.chars ≠ []) :
    reader.repetition 0 (some 1) input =
      match reader input with
      | some (part, rest) => some (.list [part], rest)
      | none => some (.list [], input) := by
  rw [Reader.repetition, Reader.rounds]
  cases found : reader input with
  | none => rfl
  | some read =>
    obtain ⟨part, rest⟩ := read
    cases input with
    | nil => simp [belowMost, moves part rest found, Reader.rounds]
    | cons c input => simp [belowMost, moves part rest found, Reader.rounds]

theorem read_optionalHint (input : Text) :
    (optional (regex "\\\x7b.+?\\\x7d")).read rule input =
      match hint? input with
      | some (taken, rest) => some (.list [.text taken], rest)
      | none => some (.list [], input) := by
  rw [optional, read_repetition, read_optional]
  · rw [read_hint]
    cases hint? input <;> rfl
  · intro part rest found
    rw [read_hint] at found
    obtain ⟨⟨taken, left⟩, hint, same⟩ := Option.map_eq_some_iff.mp found
    cases same
    rw [Part.chars]
    rintro rfl
    unfold hint? at hint
    split at hint
    · split at hint
      · cases hint
      · split at hint <;> cases hint
    · cases hint

theorem stays_optionalHint : ((optional (regex "\\\x7b.+?\\\x7d")).read rule).Stays where
  splits := by
    rw [optional, read_repetition]
    exact (splits_regex rule _).repetition 0 (some 1)
  within := by
    intro line rest _
    rw [read_optionalHint, read_optionalHint, hint?_line]
    cases hint? line <;> rfl

end Expr

end Reflow
