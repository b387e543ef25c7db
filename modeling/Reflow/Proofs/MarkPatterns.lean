import Reflow.Proofs.LineRuns
import Reflow.Proofs.PatternReading

/-!
# What the marks of a comment read

The patterns behind the leads, bullets, links and markers of the grammars. Where a pattern may match
in several ways, the way it takes is stated through the line it stands on: a greedy run goes to the
last place that works and a lazy one to the first.
-/

namespace Reflow

open Text Document List Regex Pattern
open CharClass (test_single)

namespace Regex

/-! ## Runs in front of something else -/

/-- A greedy run over a class is not cut short for something that no character of the class
begins. -/
theorem ends_star_then {chars : CharClass} {second : Regex}
    (barred : ∀ before c rest, chars.test c → second.ends ⟨before, c :: rest⟩ = []) (site : Site) :
    (seq (star true (set chars)) second).ends site = second.ends (siteBehind chars site) := by
  obtain ⟨others, found, stops⟩ := ends_star_set chars site
  have shorter : others.flatMap second.ends = [] := by
    rw [flatMap_eq_nil_iff]
    rintro ⟨before, text⟩ member
    obtain ⟨c, rest, rfl, inside⟩ := stops _ member
    exact barred before c rest inside
  rw [ends, found, flatMap_cons, shorter, append_nil]

def ofChars : Text → Regex
  | [] => empty
  | [c] => set (.range c c)
  | c :: rest => seq (set (.range c c)) (ofChars rest)

theorem ends_char (c d : Char) (before : Option Char) (rest : Text) :
    (set (.range c c)).ends ⟨before, d :: rest⟩ = if c = d then [⟨some d, rest⟩] else [] := by
  rw [ends, test_single]
  by_cases same : c = d
  · simp [same]
  · simp [same, Ne.symm same]

theorem ends_ofChars (chars : Text) (before : Option Char) (text : Text) :
    (ofChars chars).ends ⟨before, text⟩ =
      match stripFront? chars text with
      | some rest => [⟨chars.getLast?.or before, rest⟩]
      | none => [] := by
  induction chars generalizing before text with
  | nil => rfl
  | cons c chars ih =>
    cases text with
    | nil =>
      cases chars with
      | nil => rfl
      | cons d chars => simp [ofChars, ends, stripFront?]
    | cons d text =>
      cases chars with
      | nil =>
        rw [ofChars, ends_char, stripFront?]
        by_cases same : c = d <;> simp [same, stripFront?]
      | cons e chars =>
        rw [ofChars, ends, ends_char, stripFront?]
        · by_cases same : c = d
          · rw [if_pos same, if_pos same, flatMap_singleton, ih]
            cases stripFront? (e :: chars) text <;> simp [List.getLast?_cons]
          · simp [same]
        · simp

theorem ends_set_seq (chars : CharClass) (second : Regex) (before : Option Char) (c : Char)
    (rest : Text) :
    (seq (set chars) second).ends ⟨before, c :: rest⟩ =
      if chars.test c then second.ends ⟨some c, rest⟩ else [] := by
  rw [ends, ends]
  cases chars.test c <;> simp

/-- A loop over a class takes one character more or none. -/
theorem ends_star_unroll (greedy : Bool) (chars : CharClass) (site : Site) :
    (star greedy (set chars)).ends site =
      loopOrder greedy (((set chars).ends site).flatMap (star greedy (set chars)).ends) site := by
  have shrinks : ∀ site : Site, ∀ stop ∈ (set chars).ends site,
      stop.rest.length < site.rest.length := fun _ _ reached => length_lt_of_mem_ends rfl reached
  exact loopEnds_length shrinks site

end Regex

variable {test : Char → Bool} {rest mark : Text}

namespace Text

/-- What may stand behind a line: nothing, or its line break. -/
def AtEnd (after : Text) : Prop := ∀ c ∈ after.head?, c = '\n'

theorem atEnd_nil : AtEnd [] := fun _ found => nomatch found

theorem AtEnd.eq_nil_or_cons {after : Text} (ends : AtEnd after) :
    after = [] ∨ ∃ rest, after = '\n' :: rest := by
  cases after with
  | nil => exact .inl rfl
  | cons c rest => exact .inr ⟨rest, by rw [ends c rfl]⟩

theorem atEnd_newline (rest : Text) : AtEnd ('\n' :: rest) := by
  intro c found
  cases found
  rfl

variable {after line : Text}

theorem takeWhile_atEnd (stop : test '\n' = false) (line : Text) (ends : AtEnd after) :
    (line ++ after).takeWhile test = line.takeWhile test := by
  cases after with
  | nil => rw [append_nil]
  | cons c rest =>
    obtain rfl := ends c rfl
    exact takeWhile_line test stop line rest

theorem dropWhile_atEnd (stop : test '\n' = false) (line : Text) (ends : AtEnd after) :
    (line ++ after).dropWhile test = line.dropWhile test ++ after := by
  cases after with
  | nil => rw [append_nil, append_nil]
  | cons c rest =>
    obtain rfl := ends c rfl
    exact dropWhile_line test stop line rest

theorem takeWhile_rest (unbroken : '\n' ∉ line) (ends : AtEnd after) :
    (line ++ after).takeWhile (· != '\n') = line := by
  rw [takeWhile_atEnd rfl line ends, ← append_nil line, takeWhile_append_of_pos]
  · simp
  · intro c member
    rw [bne_iff_ne]
    rintro rfl
    exact unbroken member

theorem dropWhile_rest (unbroken : '\n' ∉ line) (ends : AtEnd after) :
    (line ++ after).dropWhile (· != '\n') = after := by
  have whole : (line ++ after).takeWhile (· != '\n') ++ (line ++ after).dropWhile (· != '\n') =
      line ++ after := takeWhile_append_dropWhile
  rw [takeWhile_rest unbroken ends] at whole
  exact append_cancel_left whole

/-- Characters without a line break in front of a text stand in its first line. -/
theorem append_eq_line {front : Text} (ends : AtEnd after) (unbroken : '\n' ∉ front)
    (same : line ++ after = front ++ rest) :
    ∃ back, line = front ++ back ∧ rest = back ++ after := by
  rcases append_eq_append_iff.mp same with ⟨more, rfl, later⟩ | ⟨back, rfl, later⟩
  · cases more with
    | nil => exact ⟨[], by simp, by simpa using later.symm⟩
    | cons c more =>
      obtain rfl := ends c (by rw [later]; rfl)
      exact absurd (mem_append_right _ mem_cons_self) unbroken
  · exact ⟨back, rfl, later⟩

theorem stripFront?_atEnd (clean : '\n' ∉ mark) (ends : AtEnd after) :
    stripFront? mark (line ++ after) = (stripFront? mark line).map (· ++ after) := by
  cases here : stripFront? mark line with
  | some rest =>
    rw [stripFront?_eq_some] at here
    rw [Option.map_some, stripFront?_eq_some, here, append_assoc]
  | none =>
    cases there : stripFront? mark (line ++ after) with
    | none => rfl
    | some rest =>
      rw [stripFront?_eq_some] at there
      obtain ⟨back, rfl, _⟩ := append_eq_line ends clean there
      rw [stripFront?_eq_some.mpr rfl] at here
      cases here

end Text

namespace Expr

variable (rule : String → Reader) {pattern : String} {input text : Text}

theorem read_regex_some {expression : Regex} (compiled : Compiled pattern expression)
    (steady : expression.isSteady) {taken : Text}
    (found : expression.behind? input = some rest) (whole : input = taken ++ rest) :
    (regex pattern).read rule input = some (.text taken, rest) := by
  rw [read_regex compiled steady, found, Option.map_some, take_sub_length whole]

theorem read_regex_none {expression : Regex} (compiled : Compiled pattern expression)
    (steady : expression.isSteady) (missing : expression.behind? input = none) :
    (regex pattern).read rule input = none := by
  rw [read_regex compiled steady, missing, Option.map_none]

/-! ### Leads -/

theorem compiled_star :
    Compiled "[\\t ]*\\*" (.seq (.star true (.set indentClass)) (.ofChars ['*'])) :=
  anchored?_of_term rfl

theorem compiled_blanks : Compiled blanks (.plus true (.set indentClass)) :=
  anchored?_of_term rfl

theorem compiled_blank : Compiled "[\\t ]" (.set indentClass) :=
  anchored?_of_term rfl

theorem compiled_restOfLine : Compiled restOfLine (.star true (.set lineClass)) :=
  anchored?_of_term rfl

theorem compiled_nonEmptyRest : Compiled nonEmptyRest (.plus true (.set lineClass)) :=
  anchored?_of_term rfl

theorem compiled_expression : Compiled expression (.plus true (.set (.complement .blank))) :=
  anchored?_of_term rfl

def bulletClass : CharClass := .union (.range '+' '+') (.union (.range '-' '-') (.range '*' '*'))

theorem compiled_bullet : Compiled bullet (.seq (.set bulletClass) (.ofChars [' '])) :=
  anchored?_of_term rfl

theorem compiled_open :
    Compiled "[\\t ]*/\\*\\*?" (.seq (.star true (.set indentClass)) (.seq (.set (.range '/' '/'))
      (.seq (.set (.range '*' '*')) (.alt (.seq (.set (.range '*' '*')) .empty) .empty)))) :=
  anchored?_of_term rfl

theorem compiled_newline : Compiled "\\n" (.ofChars ['\n']) :=
  anchored?_of_term rfl

theorem compiled_close :
    Compiled "[\\t ]*\\*\\*?/" (.seq (.star true (.set indentClass)) (.seq (.set (.range '*' '*'))
      (.seq (.alt (.seq (.set (.range '*' '*')) .empty) .empty) (.set (.range '/' '/'))))) :=
  anchored?_of_term rfl

theorem compiled_hint :
    Compiled "\\\x7b.+?\\\x7d" (.seq (.set (.range '\x7b' '\x7b'))
      (.seq (.plus false (.set lineClass)) (.set (.range '\x7d' '\x7d')))) :=
  anchored?_of_term rfl

theorem compiled_endcode :
    Compiled "[\\t ]*@endcode" (.seq (.star true (.set indentClass)) (.ofChars "@endcode".toList)) :=
  anchored?_of_term rfl

/-! ### Readings -/

/-- A greedy run over a class takes all it can, if that is anything. -/
theorem read_plus_set {chars : CharClass} (compiled : Compiled pattern (.plus true (.set chars)))
    (tests : chars.test = test) (input : Text) :
    (regex pattern).read rule input =
      if (input.takeWhile test).isEmpty then none
      else some (.text (input.takeWhile test), input.dropWhile test) := by
  subst tests
  have stuck : Regex.Bars chars input → (regex pattern).read rule input = none := by
    intro bars
    refine read_regex_none rule compiled rfl ?_
    rw [behind?, ends_plus_of_bars bars]
    rfl
  cases input with
  | nil =>
    refine stuck ?_
    rintro _ ⟨⟩
  | cons c rest =>
    cases member : chars.test c with
    | false =>
      rw [takeWhile_cons_of_neg (by simp [member])]
      refine stuck fun d found => ?_
      cases found
      exact member
    | true =>
      obtain ⟨_, ends, _⟩ := ends_plus_set member none rest
      rw [takeWhile_cons_of_pos member, dropWhile_cons_of_pos member]
      refine read_regex_some rule compiled rfl ?_ ?_
      · rw [behind?, ends]
        rfl
      · rw [cons_append, takeWhile_append_dropWhile]

theorem read_restOfLine (input : Text) :
    (regex restOfLine).read rule input =
      some (.text (input.takeWhile (· != '\n')), input.dropWhile (· != '\n')) := by
  obtain ⟨_, ends, _⟩ := ends_star_set lineClass ⟨none, input⟩
  refine read_regex_some rule compiled_restOfLine rfl ?_ takeWhile_append_dropWhile.symm
  rw [behind?, ends, siteBehind, test_lineClass]
  rfl

theorem read_blanks (input : Text) :
    (regex blanks).read rule input =
      if (input.takeWhile isIndent).isEmpty then none
      else some (.text (input.takeWhile isIndent), input.dropWhile isIndent) :=
  read_plus_set rule compiled_blanks test_indentClass input

theorem read_nonEmptyRest (input : Text) :
    (regex nonEmptyRest).read rule input =
      if (input.takeWhile (· != '\n')).isEmpty then none
      else some (.text (input.takeWhile (· != '\n')), input.dropWhile (· != '\n')) :=
  read_plus_set rule compiled_nonEmptyRest test_lineClass input

theorem read_expression (input : Text) :
    (regex expression).read rule input =
      if (input.takeWhile (!isBlank ·)).isEmpty then none
      else some (.text (input.takeWhile (!isBlank ·)), input.dropWhile (!isBlank ·)) :=
  read_plus_set rule compiled_expression rfl input

theorem read_blank (input : Text) :
    (regex "[\\t ]").read rule input =
      match input with
      | c :: rest => if isIndent c then some (.text [c], rest) else none
      | [] => none := by
  have behind := behind?_set indentClass input
  rw [test_indentClass] at behind
  cases input with
  | nil => exact read_regex_none rule compiled_blank rfl behind
  | cons c rest =>
    dsimp only at behind ⊢
    cases indent : isIndent c with
    | true =>
      rw [indent] at behind
      exact read_regex_some rule compiled_blank rfl behind rfl
    | false =>
      rw [indent] at behind
      exact read_regex_none rule compiled_blank rfl behind

def isBullet (c : Char) : Bool := c == '+' || c == '-' || c == '*'

theorem test_bulletClass : bulletClass.test = isBullet := by
  funext c
  show ((CharClass.range '+' '+').test c ||
    ((CharClass.range '-' '-').test c || (CharClass.range '*' '*').test c)) = _
  rw [test_single, test_single, test_single, isBullet, Bool.or_assoc]

theorem behind?_ofChars (chars input : Text) :
    (ofChars chars).behind? input = stripFront? chars input := by
  rw [behind?, ends_ofChars]
  cases stripFront? chars input <;> rfl

def bullet? : Text → Option (Char × Text)
  | mark :: text => if isBullet mark then (stripFront? [' '] text).map (mark, ·) else none
  | [] => none

theorem bullet?_eq_some_iff {body : Text} {mark : Char} :
    bullet? body = some (mark, text) ↔ body = mark :: ' ' :: text ∧ isBullet mark := by
  cases body with
  | nil => simp [bullet?]
  | cons c rest =>
    cases bullet : isBullet c with
    | false => grind [bullet?]
    | true =>
      simp only [bullet?, bullet, if_true, Option.map_eq_some_iff, stripFront?_eq_some,
        singleton_append]
      constructor
      · rintro ⟨text, rfl, same⟩
        cases same
        exact ⟨rfl, bullet⟩
      · rintro ⟨same, _⟩
        cases same
        exact ⟨text, rfl, rfl⟩

theorem read_bullet (input : Text) :
    (regex bullet).read rule input =
      (bullet? input).map fun (mark, rest) => (.text [mark, ' '], rest) := by
  rw [read_regex compiled_bullet rfl]
  cases input with
  | nil => rfl
  | cons c rest =>
    rw [behind?, ends_set_seq, test_bulletClass, ends_ofChars, bullet?]
    cases isBullet c with
    | false => rfl
    | true =>
      cases stripped : stripFront? [' '] rest with
      | none => rfl
      | some left =>
        have split : c :: rest = [c, ' '] ++ left :=
          congrArg (c :: ·) (stripFront?_eq_some.mp stripped)
        simpa using take_sub_length split

theorem read_newline (input : Text) :
    (regex "\\n").read rule input = Reader.literal "\n" input := by
  have behind := behind?_ofChars ['\n'] input
  cases input with
  | nil => exact read_regex_none rule compiled_newline rfl behind
  | cons c rest =>
    by_cases line : '\n' = c
    · subst line
      exact read_regex_some rule compiled_newline rfl behind rfl
    · have missing : stripFront? ['\n'] (c :: rest) = none := by simp [stripFront?, line]
      rw [missing] at behind
      rw [read_regex_none rule compiled_newline rfl behind]
      simp [Reader.literal, stripFront?, line]

/-! ### Language hints -/

/-- A hint in braces at the front of a text, up to the first closing brace behind one character, and
the rest. -/
def hint? : Text → Option (Text × Text)
  | '\x7b' :: c :: text =>
    if c = '\n' then none
    else
      match text.dropWhile (fun d => d != '\x7d' && d != '\n') with
      | '\x7d' :: rest =>
        some ('\x7b' :: c :: text.takeWhile (fun d => d != '\x7d' && d != '\n') ++ ['\x7d'], rest)
      | _ => none
  | _ => none

/-- A lazy run over a line goes up to the first character that may follow it. -/
theorem head?_lazy (d : Char) (before : Option Char) (text : Text) :
    ((((star false (.set lineClass)).ends ⟨before, text⟩).flatMap
        (set (.range d d)).ends).head?).map Site.rest =
      stripFront? [d] (text.dropWhile fun c => c != d && c != '\n') := by
  induction text generalizing before with
  | nil => rfl
  | cons c rest ih =>
    rw [ends_star_unroll, loopOrder, if_neg (by simp), flatMap_cons,
      ends_char]
    by_cases same : d = c
    · subst same
      simp [stripFront?]
    · rw [if_neg same, nil_append]
      by_cases line : c = '\n'
      · subst line
        simp [ends, test_lineClass, stripFront?, same]
      · rw [ends_set_of_test (by simp [test_lineClass, line]), flatMap_singleton, ih,
          dropWhile_cons_of_pos (by simp [line, Ne.symm same])]

theorem behind?_hint (input : Text) :
    (seq (.set (.range '\x7b' '\x7b')) (.seq (.plus false (.set lineClass))
      (.set (.range '\x7d' '\x7d')))).behind? input = (hint? input).map (·.2) := by
  unfold hint?
  split
  · next c text =>
    have brace : (CharClass.range '\x7b' '\x7b').test '\x7b' := rfl
    rw [behind?, ends_set_seq, if_pos brace, ends, ends]
    by_cases line : c = '\n'
    · subst line
      rfl
    · rw [ends_set_of_test (by simp [test_lineClass, line]), flatMap_singleton, if_neg line]
      refine (head?_lazy '\x7d' (some c) text).trans ?_
      split
      · next rest tail =>
        rw [tail]
        rfl
      · next other =>
        cases tail : text.dropWhile fun d => d != '\x7d' && d != '\n' with
        | nil => rfl
        | cons d rest =>
          have different : ¬ '\x7d' = d := by
            rintro rfl
            exact other rest tail
          simp [stripFront?, different]
  · next other =>
    cases input with
    | nil => rfl
    | cons d text =>
      rw [behind?, ends_set_seq, test_single]
      by_cases brace : d = '\x7b'
      · subst brace
        cases text with
        | nil => rfl
        | cons c text => exact absurd rfl (other c text)
      · simp [brace]

theorem hint?_split {taken : Text} (found : hint? input = some (taken, rest)) :
    input = taken ++ rest := by
  unfold hint? at found
  split at found
  · next c text =>
    split at found
    · cases found
    · split at found
      · next rest' tail =>
        cases found
        have whole : text.takeWhile (fun d => d != '\x7d' && d != '\n') ++
            text.dropWhile (fun d => d != '\x7d' && d != '\n') = text :=
          takeWhile_append_dropWhile
        rw [tail] at whole
        simp [whole]
      · cases found
  · cases found

theorem read_hint (input : Text) :
    (regex "\\\x7b.+?\\\x7d").read rule input =
      (hint? input).map fun (taken, rest) => (.text taken, rest) := by
  have behind := behind?_hint input
  cases found : hint? input with
  | none =>
    rw [found] at behind
    exact read_regex_none rule compiled_hint rfl behind
  | some pair =>
    obtain ⟨taken, rest⟩ := pair
    rw [found] at behind
    exact read_regex_some rule compiled_hint rfl behind (hint?_split found)

/-! ### Opening and closing marks -/

/-- What opens a comment at the front of a text, behind indentation, and the rest. -/
def openMark? (text : Text) : Option (Text × Text) :=
  match stripFront? ['/', '*'] text with
  | some ('*' :: rest) => some (['/', '*', '*'], rest)
  | some rest => some (['/', '*'], rest)
  | none => none

/-- What closes a comment at the front of a text, behind indentation, and the rest. -/
def closeMark? (text : Text) : Option (Text × Text) :=
  match stripFront? ['*'] text with
  | some ('*' :: '/' :: rest) => some (['*', '*', '/'], rest)
  | some ('/' :: rest) => some (['*', '/'], rest)
  | _ => none

theorem openMark?_split (found : openMark? text = some (mark, rest)) : text = mark ++ rest := by
  unfold openMark? at found
  split at found
  · next rest' stripped =>
    cases found
    rw [stripFront?_eq_some.mp stripped]
    rfl
  · next rest' _ stripped =>
    cases found
    exact stripFront?_eq_some.mp stripped
  · cases found

theorem closeMark?_split (found : closeMark? text = some (mark, rest)) : text = mark ++ rest := by
  unfold closeMark? at found
  split at found
  · next rest' stripped =>
    cases found
    rw [stripFront?_eq_some.mp stripped]
    rfl
  · next rest' stripped =>
    cases found
    rw [stripFront?_eq_some.mp stripped]
    rfl
  · cases found

/-- A mark behind indentation is read behind all of the indentation. -/
theorem read_indented (second : Regex) (mark? : Text → Option (Text × Text))
    (compiled : Compiled pattern (.seq (.star true (.set indentClass)) second))
    (steady : second.isSteady)
    (barred : ∀ before c rest, isIndent c → second.ends ⟨before, c :: rest⟩ = [])
    (marks : ∀ before text, ((second.ends ⟨before, text⟩).head?).map Site.rest =
      (mark? text).map (·.2))
    (splits : ∀ {text mark rest}, mark? text = some (mark, rest) → text = mark ++ rest)
    (input : Text) :
    (regex pattern).read rule input =
      (mark? (input.dropWhile isIndent)).map fun (mark, rest) =>
        (.text (input.takeWhile isIndent ++ mark), rest) := by
  have behind : (seq (.star true (.set indentClass)) second).behind? input =
      (mark? (input.dropWhile isIndent)).map (·.2) := by
    rw [behind?, ends_star_then, siteBehind, test_indentClass]
    · exact marks _ _
    · rw [test_indentClass]
      exact barred
  have whole : input.takeWhile isIndent ++ input.dropWhile isIndent = input :=
    takeWhile_append_dropWhile
  cases found : mark? (input.dropWhile isIndent) with
  | none =>
    rw [found] at behind
    exact read_regex_none rule compiled (by simpa [isSteady, consumes] using steady) behind
  | some pair =>
    obtain ⟨mark, rest⟩ := pair
    rw [found] at behind
    refine read_regex_some rule compiled (by simpa [isSteady, consumes] using steady) behind ?_
    rw [append_assoc, ← splits found, whole]

theorem ends_optional_star (before : Option Char) (text : Text) :
    (alt (.seq (.set (.range '*' '*')) .empty) .empty).ends ⟨before, text⟩ =
      match text with
      | '*' :: rest => [⟨some '*', rest⟩, ⟨before, '*' :: rest⟩]
      | text => [⟨before, text⟩] := by
  rw [ends_optional_set]
  split
  · rfl
  · next other =>
    rw [ends_set_of_bars, nil_append]
    intro c found
    rw [test_single]
    refine beq_false_of_ne ?_
    rintro rfl
    obtain ⟨rest, rfl⟩ := List.head?_eq_some_iff.mp found
    exact other rest rfl

theorem barred_char {d : Char} (other : isIndent d = false) (second : Regex)
    (before : Option Char) (c : Char) (rest : Text) (indent : isIndent c) :
    (seq (.set (.range d d)) second).ends ⟨before, c :: rest⟩ = [] := by
  have different : c ≠ d := by
    rintro rfl
    rw [indent] at other
    cases other
  rw [ends_set_seq, test_single, beq_false_of_ne different]
  rfl

/-- A character in front of something else. -/
theorem ends_char_seq (d : Char) (second : Regex) (before : Option Char) (text : Text) :
    (seq (.set (.range d d)) second).ends ⟨before, text⟩ =
      match stripFront? [d] text with
      | some rest => second.ends ⟨some d, rest⟩
      | none => [] := by
  cases text with
  | nil => rfl
  | cons c rest =>
    rw [ends_set_seq, test_single]
    by_cases same : c = d
    · subst same
      simp [stripFront?]
    · simp [stripFront?, same, Ne.symm same]

theorem ends_chars_seq (chars : Text) (second : Regex) (before : Option Char) (text : Text) :
    (seq (.ofChars chars) second).ends ⟨before, text⟩ =
      match stripFront? chars text with
      | some rest => second.ends ⟨chars.getLast?.or before, rest⟩
      | none => [] := by
  rw [ends, ends_ofChars]
  cases stripFront? chars text <;> simp

theorem ends_seq_assoc (first second third : Regex) (site : Site) :
    (seq first (.seq second third)).ends site = (seq (.seq first second) third).ends site := by
  simp only [ends, flatMap_assoc]

theorem read_openMark (input : Text) :
    (regex "[\\t ]*/\\*\\*?").read rule input =
      (openMark? (input.dropWhile isIndent)).map fun (mark, rest) =>
        (.text (input.takeWhile isIndent ++ mark), rest) := by
  refine read_indented rule _ openMark? compiled_open rfl (barred_char rfl _) ?_ openMark?_split input
  intro before text
  rw [ends_seq_assoc]
  change (((seq (.ofChars ['/', '*']) _).ends _).head?).map _ = _
  rw [ends_chars_seq, openMark?]
  cases stripFront? ['/', '*'] text with
  | none => rfl
  | some rest =>
    dsimp only
    rw [ends_optional_star]
    split
    · rfl
    · next other =>
      split
      · next rest' same =>
        cases same
        exact absurd rfl (other rest')
      · next same =>
        cases same
        rfl
      · next same => cases same

theorem read_closeMark (input : Text) :
    (regex "[\\t ]*\\*\\*?/").read rule input =
      (closeMark? (input.dropWhile isIndent)).map fun (mark, rest) =>
        (.text (input.takeWhile isIndent ++ mark), rest) := by
  refine read_indented rule _ closeMark? compiled_close rfl (barred_char rfl _) ?_
    closeMark?_split input
  intro before text
  rw [ends_char_seq, closeMark?]
  cases stripFront? ['*'] text with
  | none => rfl
  | some rest =>
    dsimp only
    rw [ends, ends_optional_star]
    cases rest with
    | nil => rfl
    | cons c rest =>
      by_cases star : c = '*'
      · subst star
        cases rest with
        | nil => rfl
        | cons d rest =>
          by_cases slash : '/' = d
          · subst slash
            rfl
          · simp [ends_char, slash, Ne.symm slash]
      · by_cases slash : '/' = c
        · subst slash
          rfl
        · simp [ends_char, star, slash, Ne.symm slash]

/-- A given text behind indentation is read behind all of the indentation. -/
theorem read_indented_chars {d : Char} {more : Text}
    (compiled : Compiled pattern (.seq (.star true (.set indentClass)) (.ofChars (d :: more))))
    (steady : (ofChars (d :: more)).isSteady) (other : isIndent d = false) (input : Text) :
    (regex pattern).read rule input =
      (stripFront? (d :: more) (input.dropWhile isIndent)).map fun rest =>
        (.text (input.takeWhile isIndent ++ d :: more), rest) := by
  have read := read_indented rule (.ofChars (d :: more))
    (fun text => (stripFront? (d :: more) text).map (d :: more, ·)) compiled steady ?_ ?_ ?_ input
  · rw [read, Option.map_map]
    rfl
  · intro before c rest indent
    rw [ends_ofChars]
    have different : ¬ d = c := by
      rintro rfl
      rw [indent] at other
      cases other
    simp [stripFront?, different]
  · intro before text
    rw [ends_ofChars]
    cases stripFront? (d :: more) text <;> rfl
  · intro text mark rest found
    obtain ⟨rest', stripped, same⟩ := Option.map_eq_some_iff.mp found
    cases same
    exact stripFront?_eq_some.mp stripped

theorem read_star (input : Text) :
    (regex "[\\t ]*\\*").read rule input =
      (stripFront? ['*'] (input.dropWhile isIndent)).map fun rest =>
        (.text (input.takeWhile isIndent ++ ['*']), rest) :=
  read_indented_chars rule compiled_star rfl rfl input

theorem isSome_read_endcode (input : Text) :
    ((regex "[\\t ]*@endcode").read rule input).isSome =
      (stripFront? "@endcode".toList (input.dropWhile isIndent)).isSome := by
  have read := read_indented_chars rule compiled_endcode rfl rfl input
  rw [read, Option.isSome_map]
  rfl

end Expr

end Reflow
