import Reflow.Document.TagLine
import Reflow.Proofs.Captures
import Reflow.Proofs.LineRuns

/-!
# Reading token by token

Lines are taken together to tokens, and every list of lines falls into tokens and lines that begin
with none (`Lexer.exists_scans`). A reader that stops at the ends of tokens is told by what it does
to lists of tokens (`Reads`): how many of them it takes, or that it refuses them. Sequences, choices
and repetitions of such readers are told so too, and what holds of each thing that is taken holds of
all of them together (`Taking.Gives`).
-/

namespace Reflow

open Text List Option Reader

variable {γ δ τ : Type} {stop : List Text} {tail : Text} {readers : List Reader}
  {values : List γ} {make : List γ → Text → List δ} {rest taken tokens : List τ}
  {holds other : List τ → List γ → Prop} {bound : Nat} {look : Part → List γ} {reader : Reader}

namespace Part

/-- The values picked from the captures of a part. -/
def view {γ : Type} (pick : Part → Option γ) (part : Part) : List γ := part.collect.filterMap pick

@[simp] theorem view_field (pick : Part → Option γ) (label : String) (part : Part) :
    (field label part).view pick = (pick (.field label part)).toList := by
  cases picked : pick (.field label part) <;> simp [view, picked]

/-- What is seen of a list is what is seen of its items. -/
def Joins {γ : Type} (look : Part → List γ) : Prop :=
  ∀ parts, look (.list parts) = parts.flatMap look

theorem joins_view (pick : Part → Option γ) : Joins (view pick) := by
  intro parts
  rw [view, collect, collectAll_eq_flatMap, filterMap_flatMap]
  rfl

theorem charsAll_eq_flatMap (parts : List Part) : charsAll parts = parts.flatMap chars := by
  induction parts with
  | nil => rw [charsAll, flatMap_nil]
  | cons first rest ih => rw [charsAll, flatMap_cons, ih]

theorem joins_chars : Joins chars := by
  intro parts
  rw [chars, charsAll_eq_flatMap]

end Part

/-! ## Tokens -/

/-- Takes a token off the front of some lines. Which token it is depends on its own lines alone. -/
structure Lexer (τ : Type) where
  next? : List Text → Option (τ × List Text)
  /-- The lines of a token. -/
  source : τ → List Text
  advances : ∀ {lines token more}, next? lines = some (token, more) →
    source token ≠ [] ∧ lines = source token ++ more
  steady : ∀ {lines token more}, next? lines = some (token, more) →
    ∀ other, next? (source token ++ other) = some (token, other)

variable {lexer : Lexer τ}

namespace Lexer

variable (lexer)

/-- A token is taken off its own lines. -/
def Knows (token : τ) : Prop :=
  ∀ other, lexer.next? (lexer.source token ++ other) = some (token, other)

def linesOf (tokens : List τ) (stop : List Text) : List Text :=
  tokens.flatMap lexer.source ++ stop

/-- The text of tokens and of lines behind them, in front of a tail. -/
def text (tokens : List τ) (stop : List Text) (tail : Text) : Text :=
  unlines (lexer.linesOf tokens stop) ++ tail

/-- Tokens stand in front of lines that do not begin with one. -/
structure Scans (tokens : List τ) (stop : List Text) : Prop where
  known : ∀ token ∈ tokens, lexer.Knows token
  stops : lexer.next? stop = none
  unbroken : Unbroken (lexer.linesOf tokens stop)

variable {lexer} {token : τ}

theorem Knows.source_ne_nil (known : lexer.Knows token) : lexer.source token ≠ [] :=
  (lexer.advances (known [])).1

theorem linesOf_append : lexer.linesOf (taken ++ rest) stop =
    taken.flatMap lexer.source ++ lexer.linesOf rest stop := by
  rw [linesOf, linesOf, flatMap_append, append_assoc]

theorem linesOf_cons : lexer.linesOf (token :: tokens) stop =
    lexer.source token ++ lexer.linesOf tokens stop := by
  rw [linesOf, linesOf, flatMap_cons, append_assoc]

theorem text_append (tail : Text) : lexer.text (taken ++ rest) stop tail =
    unlines (taken.flatMap lexer.source) ++ lexer.text rest stop tail := by
  rw [text, text, linesOf_append, unlines_append, append_assoc]

theorem Scans.drop (scans : lexer.Scans (taken ++ rest) stop) : lexer.Scans rest stop where
  known := fun token member => scans.known token (mem_append_right _ member)
  stops := scans.stops
  unbroken := by
    have unbroken := scans.unbroken
    rw [linesOf_append] at unbroken
    exact fun line member => unbroken line (mem_append_right _ member)

/-- What a lexer does with the lines of tokens. -/
theorem Scans.next? (scans : lexer.Scans tokens stop) :
    lexer.next? (lexer.linesOf tokens stop) =
      tokens.head?.map (·, lexer.linesOf tokens.tail stop) := by
  cases tokens with
  | nil => exact scans.stops
  | cons token tokens =>
    rw [linesOf_cons]
    exact scans.known token mem_cons_self _

theorem Scans.length_lt (scans : lexer.Scans tokens stop) (tail : Text) :
    tokens.length < (lexer.text tokens stop tail).length + 1 := by
  have fewer : tokens.length ≤ (lexer.linesOf tokens stop).length := by
    induction tokens with
    | nil => exact Nat.zero_le _
    | cons token tokens ih =>
      have behind : lexer.Scans ([token] ++ tokens) stop := scans
      have later := ih behind.drop
      have someLine := (scans.known token mem_cons_self).source_ne_nil
      have positive := length_pos_iff.mpr someLine
      rw [linesOf_cons, length_append, length_cons]
      omega
  exact Nat.lt_of_le_of_lt fewer (length_lt_unlines _ tail)

/-- Every list of lines falls into tokens, as far as that goes. -/
theorem exists_scans (lexer : Lexer τ) {lines : List Text} (unbroken : Unbroken lines) :
    ∃ tokens stop, lines = lexer.linesOf tokens stop ∧ lexer.Scans tokens stop := by
  cases next : lexer.next? lines with
  | none => exact ⟨[], lines, rfl, by simp, next, unbroken⟩
  | some found =>
    obtain ⟨token, more⟩ := found
    obtain ⟨someLine, whole⟩ := lexer.advances next
    have shorter : more.length < lines.length := by
      have positive := length_pos_iff.mpr someLine
      rw [whole, length_append]
      omega
    have unbrokenMore : Unbroken more := by
      intro line member
      rw [whole] at unbroken
      exact unbroken line (mem_append_right _ member)
    obtain ⟨tokens, stop, rfl, scans⟩ := exists_scans lexer unbrokenMore
    refine ⟨token :: tokens, stop, by rw [linesOf_cons, whole], ?_, scans.stops, ?_⟩
    · intro other member
      rcases mem_cons.mp member with rfl | member
      · exact lexer.steady next
      · exact scans.known other member
    · rw [linesOf_cons, ← whole]
      exact unbroken
termination_by lines.length

def lines : Lexer Text where
  next?
    | [] => none
    | line :: lines => some (line, lines)
  source line := [line]
  advances := by
    intro lines token more found
    cases lines with
    | nil => cases found
    | cons line lines =>
      cases found
      exact ⟨cons_ne_nil _ _, rfl⟩
  steady := fun _ _ => rfl

theorem linesOf_lines (given : List Text) : lines.linesOf given [] = given := by
  rw [linesOf, append_nil]
  exact flatMap_singleton' given

theorem scans_lines {given : List Text} (unbroken : Unbroken given) :
    lines.Scans given [] where
  known := fun _ _ _ => rfl
  stops := rfl
  unbroken := by
    rw [linesOf_lines]
    exact unbroken

end Lexer

/-! ## Taking tokens -/

/-- What is to be taken off the front of some tokens: values, and the tokens that are left. -/
abbrev Taking (τ γ : Type) := List τ → Option (List γ × List τ)

variable {takings : List (Taking τ γ)} {second taking : Taking τ γ}

namespace Taking

/-- What is taken and the values that it has are related. -/
def Gives (taking : Taking τ γ) (holds : List τ → List γ → Prop) : Prop :=
  ∀ ⦃tokens values rest⦄, taking tokens = some (values, rest) →
    ∃ taken, tokens = taken ++ rest ∧ holds taken values

/-- A taking takes at least one token. -/
def Shortens (taking : Taking τ γ) : Prop := taking.Gives fun taken _ => taken ≠ []

/-- What holds of things that are taken one after the other holds of them together. -/
structure Adds (holds : List τ → List γ → Prop) : Prop where
  nil : holds [] []
  append : ∀ {first second : List τ} {values others : List γ}, holds first values →
    holds second others → holds (first ++ second) (values ++ others)

theorem Gives.mono (gives : taking.Gives holds)
    (weaker : ∀ {taken values}, holds taken values → other taken values) : taking.Gives other := by
  intro tokens values rest found
  obtain ⟨taken, whole, related⟩ := gives found
  exact ⟨taken, whole, weaker related⟩

theorem Gives.and (gives : taking.Gives holds) (givesOther : taking.Gives other) :
    taking.Gives fun taken values => holds taken values ∧ other taken values := by
  intro tokens values rest found
  obtain ⟨taken, whole, related⟩ := gives found
  obtain ⟨same, again, also⟩ := givesOther found
  obtain rfl : taken = same := append_cancel_right (whole.symm.trans again)
  exact ⟨taken, whole, related, also⟩

theorem Shortens.any (shortens : taking.Shortens) : taking.Gives fun _ _ => True :=
  Gives.mono shortens fun _ => trivial

theorem Shortens.length_lt (shortens : taking.Shortens)
    (found : taking tokens = some (values, rest)) : rest.length < tokens.length := by
  obtain ⟨taken, rfl, someToken⟩ := shortens found
  have positive := length_pos_iff.mpr someToken
  rw [length_append]
  omega

end Taking

/-- A reader takes tokens off the front of a text that has a tail, or refuses them, as a taking
tells. -/
def Reads {τ γ : Type} (lexer : Lexer τ) (tail : Text) (reader : Reader)
    (look : Part → List γ) (taking : Taking τ γ) : Prop :=
  ∀ ⦃tokens stop⦄, lexer.Scans tokens stop →
    match taking tokens with
    | none => reader (lexer.text tokens stop tail) = none
    | some (values, rest) => ∃ part taken, tokens = taken ++ rest ∧
        reader (lexer.text tokens stop tail) = some (part, lexer.text rest stop tail) ∧
          look part = values

namespace Reads

theorem of_none (reads : Reads lexer tail reader look taking) (scans : lexer.Scans tokens stop)
    (refused : taking tokens = none) : reader (lexer.text tokens stop tail) = none := by
  have found := reads scans
  rw [refused] at found
  exact found

theorem of_some (reads : Reads lexer tail reader look taking) (scans : lexer.Scans tokens stop)
    (taken : taking tokens = some (values, rest)) :
    ∃ part front, tokens = front ++ rest ∧
      reader (lexer.text tokens stop tail) = some (part, lexer.text rest stop tail) ∧
        look part = values := by
  have found := reads scans
  rw [taken] at found
  exact found

end Reads

/-- What a reader leaves of some tokens tells what it read. -/
theorem Reader.Splits.chars_eq {τ : Type} {lexer : Lexer τ} {reader : Reader}
    (splits : reader.Splits) {taken rest : List τ} {stop : List Text} {tail : Text} {part : Part}
    (found : reader (lexer.text (taken ++ rest) stop tail) = some (part, lexer.text rest stop tail)) :
    part.chars = unlines (taken.flatMap lexer.source) := by
  have whole := splits.split found
  rw [Lexer.text_append] at whole
  exact (append_cancel_right whole).symm

/-! ## One line -/

def takeOne {τ γ : Type} (value? : τ → Option (List γ)) : Taking τ γ
  | [] => none
  | token :: rest => (value? token).map (·, rest)

variable {value? : τ → Option (List γ)}

theorem Taking.gives_takeOne
    (each : ∀ {token values}, value? token = some values → holds [token] values) :
    (takeOne value?).Gives holds := by
  intro tokens values rest found
  cases tokens with
  | nil => cases found
  | cons token tokens =>
    obtain ⟨_, value, same⟩ := map_eq_some_iff.mp found
    cases same
    exact ⟨[token], rfl, each value⟩

theorem shortens_takeOne (value? : τ → Option (List γ)) : (takeOne value?).Shortens :=
  Taking.gives_takeOne fun _ => cons_ne_nil _ _

/-- A reader takes one line, or refuses it, whatever comes behind, and takes nothing of a text
without a line break. -/
structure TakesLine {γ : Type} (reader : Reader) (look : Part → List γ)
    (value? : Text → Option (List γ)) : Prop where
  line : ∀ line rest, '\n' ∉ line →
    (reader (line ++ '\n' :: rest)).map (fun (part, rest) => (look part, rest)) =
      (value? line).map (·, rest)
  stop : ∀ {tail}, '\n' ∉ tail → reader tail = none

/-- A reader that takes a line or refuses it, given that it takes nothing of the tail. -/
theorem Reads.of_line {value? : Text → Option (List γ)}
    (line : ∀ line rest, '\n' ∉ line →
      (reader (line ++ '\n' :: rest)).map (fun (part, rest) => (look part, rest)) =
        (value? line).map (·, rest)) (stops : reader tail = none) :
    Reads Lexer.lines tail reader look (takeOne value?) := by
  intro tokens stop scans
  cases tokens with
  | nil =>
    have nothing : stop = [] := by
      cases stop with
      | nil => rfl
      | cons line lines => cases scans.stops
    subst nothing
    exact stops
  | cons first tokens =>
    have clean : '\n' ∉ first := scans.unbroken first mem_cons_self
    have whole : Lexer.lines.text (first :: tokens) stop tail =
        first ++ '\n' :: Lexer.lines.text tokens stop tail := by
      rw [Lexer.text, Lexer.linesOf_cons]
      exact (congrArg (· ++ tail) (unlines_cons first _)).trans (by simp [Lexer.text])
    have read := line first (Lexer.lines.text tokens stop tail) clean
    rw [← whole] at read
    rw [takeOne]
    cases value : value? first with
    | none =>
      rw [value] at read
      exact map_eq_none_iff.mp read
    | some values =>
      rw [value] at read
      obtain ⟨⟨part, rest⟩, found, foundValue⟩ := map_eq_some_iff.mp read
      cases foundValue
      exact ⟨part, [first], rfl, found, rfl⟩

theorem TakesLine.reads {value? : Text → Option (List γ)}
    (takes : TakesLine reader look value?) (last : '\n' ∉ tail) :
    Reads Lexer.lines tail reader look (takeOne value?) :=
  .of_line takes.line (takes.stop last)

/-- A reader of lines takes one token, if it takes the lines of tokens that have a value and no
others. -/
theorem Reads.of_lines {taking : Taking Text γ}
    (reads : Reads Lexer.lines tail reader look taking) (same : ∀ lines, taking lines =
      (lexer.next? lines).bind fun (token, more) => (value? token).map (·, more)) :
    Reads lexer tail reader look (takeOne value?) := by
  intro tokens stop scans
  have read := reads (Lexer.scans_lines scans.unbroken)
  have perLine : ∀ lines, Lexer.lines.text lines [] tail = unlines lines ++ tail := fun lines => by
    rw [Lexer.text, Lexer.linesOf_lines]
  rw [same, scans.next?, perLine] at read
  cases tokens with
  | nil => exact read
  | cons token tokens =>
    simp only [List.head?_cons, map_some, bind_some, tail_cons] at read
    rw [takeOne]
    cases value : value? token with
    | none =>
      rw [value] at read
      exact read
    | some values =>
      rw [value] at read
      obtain ⟨part, _, _, found, seen⟩ := read
      rw [perLine] at found
      exact ⟨part, [token], rfl, found, seen⟩

/-! ## One after the other -/

def takeEach {τ γ : Type} : List (Taking τ γ) → Taking τ γ
  | [], tokens => some ([], tokens)
  | taking :: takings, tokens =>
    (taking tokens).bind fun (values, rest) =>
      (takeEach takings rest).map fun (others, stop) => (values ++ others, stop)

theorem takeEach_cons_eq_some {stop : List τ} {all : List γ} :
    takeEach (taking :: takings) tokens = some (all, stop) ↔
      ∃ values rest others, taking tokens = some (values, rest) ∧
        takeEach takings rest = some (others, stop) ∧ all = values ++ others := by
  rw [takeEach, bind_eq_some_iff]
  constructor
  · rintro ⟨⟨values, rest⟩, first, found⟩
    obtain ⟨⟨others, _⟩, later, same⟩ := map_eq_some_iff.mp found
    cases same
    exact ⟨values, rest, others, first, later, rfl⟩
  · rintro ⟨values, rest, others, first, later, rfl⟩
    exact ⟨(values, rest), first, by simp only [later, map_some]⟩

theorem Taking.gives_takeEach (adds : Adds holds) (each : ∀ taking ∈ takings, Gives taking holds) :
    (takeEach takings).Gives holds := by
  induction takings with
  | nil =>
    intro tokens values rest found
    cases found
    exact ⟨[], rfl, adds.nil⟩
  | cons taking takings ih =>
    intro tokens all stop found
    obtain ⟨values, rest, others, first, later, rfl⟩ := takeEach_cons_eq_some.mp found
    obtain ⟨taken, rfl, related⟩ := each taking mem_cons_self first
    obtain ⟨more, rfl, also⟩ :=
      ih (forall_mem_cons.mp each).2 later
    exact ⟨taken ++ more, (append_assoc ..).symm, adds.append related also⟩

/-- What the two parts of a sequence give. -/
theorem Taking.gives_both {first : Taking τ γ} {also : List τ → List γ → Prop}
    (gives : first.Gives holds) (givesLater : second.Gives also) :
    (takeEach [first, second]).Gives fun taken values => ∃ front back start later,
      taken = front ++ back ∧ values = start ++ later ∧ holds front start ∧ also back later := by
  intro tokens all stop found
  obtain ⟨values, rest, others, taken, foundLater, rfl⟩ := takeEach_cons_eq_some.mp found
  obtain ⟨later, last, noneLeft, takenLater, ended, rfl⟩ := takeEach_cons_eq_some.mp foundLater
  cases ended
  obtain ⟨front, rfl, related⟩ := gives taken
  obtain ⟨back, rfl, relatedLater⟩ := givesLater takenLater
  exact ⟨front ++ back, (append_assoc ..).symm, front, back, values, later, rfl,
    by rw [append_nil], related, relatedLater⟩

/-- A sequence of two takes a token if its first part does. -/
theorem Taking.Shortens.both {first : Taking τ γ} (shortens : first.Shortens)
    (gives : second.Gives fun _ _ => True) : (takeEach [first, second]).Shortens := by
  refine (gives_both shortens gives).mono ?_
  rintro _ _ ⟨front, back, _, _, rfl, _, someToken, _⟩
  simp [someToken]

theorem Reads.nil (joins : Part.Joins look) :
    Reads lexer tail (.sequence []) look (takeEach []) := by
  intro tokens stop _
  exact ⟨.list [], [], rfl, rfl, joins []⟩

theorem Reads.cons (joins : Part.Joins look) (reads : Reads lexer tail reader look taking)
    (readsOthers : Reads lexer tail (.sequence readers) look (takeEach takings)) :
    Reads lexer tail (.sequence (reader :: readers)) look (takeEach (taking :: takings)) := by
  intro tokens stop scans
  rw [takeEach]
  cases taken : taking tokens with
  | none =>
    have refused := reads.of_none scans taken
    simp only [bind_none, Reader.sequence, Reader.readAll, refused, map_none]
  | some pair =>
    obtain ⟨values, rest⟩ := pair
    obtain ⟨part, front, rfl, found, seen⟩ := reads.of_some scans taken
    dsimp only [bind_some]
    cases takenLater : takeEach takings rest with
    | none =>
      have refused := readsOthers.of_none scans.drop takenLater
      rw [Reader.sequence, map_eq_none_iff] at refused
      simp only [map_none, Reader.sequence, Reader.readAll, found, refused]
    | some pair =>
      obtain ⟨others, last⟩ := pair
      obtain ⟨lastPart, behind, rfl, foundLater, seenLater⟩ :=
        readsOthers.of_some scans.drop takenLater
      obtain ⟨⟨parts, left⟩, read, same⟩ := map_eq_some_iff.mp foundLater
      obtain ⟨rfl, rfl⟩ := Prod.mk.inj same
      refine ⟨.list (part :: parts), front ++ behind, (append_assoc ..).symm, ?_, ?_⟩
      · simp only [Reader.sequence, Reader.readAll, found, read, map_some]
      · rw [joins, flatMap_cons, seen, ← joins, seenLater]

/-! ## Choices -/

/-- Takes with the first taking that takes anything. -/
def takeFirst {τ γ : Type} : List (Taking τ γ) → Taking τ γ
  | [], _ => none
  | taking :: takings, tokens => (taking tokens).or (takeFirst takings tokens)

theorem Taking.gives_nothing : (takeFirst []).Gives holds :=
  fun _ _ _ found => by cases found

/-- What a choice gives, if each of its parts gives it. -/
theorem Taking.Gives.or (gives : taking.Gives holds) (others : (takeFirst takings).Gives holds) :
    (takeFirst (taking :: takings)).Gives holds := by
  intro tokens values rest found
  rcases or_eq_some_iff.mp found with first | ⟨_, later⟩
  · exact gives first
  · exact others later

theorem Reads.nothing : Reads lexer tail (.choice []) look (takeFirst []) := fun _ _ _ => rfl

theorem Reads.or (reads : Reads lexer tail reader look taking)
    (others : Reads lexer tail (.choice readers) look (takeFirst takings)) :
    Reads lexer tail (.choice (reader :: readers)) look (takeFirst (taking :: takings)) := by
  intro tokens stop scans
  rw [takeFirst]
  cases taken : taking tokens with
  | none =>
    have refused := reads.of_none scans taken
    have found := others scans
    simpa only [none_or, Reader.choice, refused] using found
  | some pair =>
    obtain ⟨values, rest⟩ := pair
    obtain ⟨part, front, whole, found, seen⟩ := reads.of_some scans taken
    exact ⟨part, front, whole, by simp only [Reader.choice, found], seen⟩

/-! ## Captures -/

/-- Makes values of what was taken and of its text. -/
def takeText {τ γ δ : Type} (lexer : Lexer τ) (make : List γ → Text → List δ)
    (taking : Taking τ γ) : Taking τ δ := fun tokens =>
  (taking tokens).map fun (values, rest) =>
    (make values (unlines ((tokens.take (tokens.length - rest.length)).flatMap lexer.source)), rest)

theorem takeText_append (found : taking (taken ++ rest) = some (values, rest)) :
    takeText lexer make taking (taken ++ rest) =
      some (make values (unlines (taken.flatMap lexer.source)), rest) := by
  have front : (taken ++ rest).take ((taken ++ rest).length - rest.length) = taken := by
    rw [length_append, Nat.add_sub_cancel, take_left]
  simp only [takeText, found, map_some, front]

theorem Taking.Gives.takeText {holds : List τ → List δ → Prop}
    (gives : taking.Gives fun taken values =>
      holds taken (make values (unlines (taken.flatMap lexer.source)))) :
    (takeText lexer make taking).Gives holds := by
  intro tokens made rest found
  obtain ⟨⟨values, _⟩, first, same⟩ := map_eq_some_iff.mp found
  obtain rfl : _ = rest := (Prod.mk.inj same).2
  obtain ⟨taken, rfl, related⟩ := gives first
  rw [takeText_append first] at found
  cases found
  exact ⟨taken, rfl, related⟩

theorem Taking.Shortens.takeText (shortens : taking.Shortens) :
    (takeText lexer make taking).Shortens :=
  Gives.takeText shortens

theorem Reads.capture {label : String} {outer : Part → List δ}
    (reads : Reads lexer tail reader look taking) (splits : reader.Splits)
    (seen : ∀ part, outer (.field label part) = make (look part) part.chars) :
    Reads lexer tail (reader.map (.field label)) outer (takeText lexer make taking) := by
  intro tokens stop scans
  cases taken : taking tokens with
  | none =>
    have refused := reads.of_none scans taken
    have noneTaken : takeText lexer make taking tokens = none := by
      rw [takeText, taken, map_none]
    rw [noneTaken]
    simp only [Reader.map, refused, map_none]
  | some pair =>
    obtain ⟨values, rest⟩ := pair
    obtain ⟨part, front, rfl, found, rfl⟩ := reads.of_some scans taken
    rw [takeText_append taken]
    refine ⟨.field label part, front, rfl, ?_, ?_⟩
    · simp only [Reader.map, found, map_some]
    · rw [seen, splits.chars_eq found]

/-! ## Repetitions -/

/-- Tokens are taken again and again until they are refused. -/
inductive Runs {τ γ : Type} (taking : Taking τ γ) : List τ → List γ → List τ → Prop
  | stop {tokens : List τ} (refused : taking tokens = none) : Runs taking tokens [] tokens
  | again {tokens rest last : List τ} {values others : List γ}
      (taken : taking tokens = some (values, rest)) (later : Runs taking rest others last) :
      Runs taking tokens (values ++ others) last

theorem Runs.refused (runs : Runs taking tokens values rest) : taking rest = none := by
  induction runs with
  | stop refused => exact refused
  | again _ _ ih => exact ih

def takeRounds {τ γ : Type} (taking : Taking τ γ) : Nat → List τ → List γ × List τ
  | 0, tokens => ([], tokens)
  | bound + 1, tokens =>
    match taking tokens with
    | none => ([], tokens)
    | some (values, rest) =>
      let (others, stop) := takeRounds taking bound rest
      (values ++ others, stop)

/-- Takes again and again until the tokens are refused. -/
def takeAll {τ γ : Type} (taking : Taking τ γ) (tokens : List τ) : List γ × List τ :=
  takeRounds taking tokens.length tokens

def takeMany {τ γ : Type} (taking : Taking τ γ) : Taking τ γ := fun tokens =>
  some (takeAll taking tokens)

def takeSome {τ γ : Type} (taking : Taking τ γ) : Taking τ γ := fun tokens =>
  if (taking tokens).isSome then some (takeAll taking tokens) else none

namespace Taking

theorem Shortens.runs_takeRounds (shortens : taking.Shortens) (enough : tokens.length ≤ bound) :
    Runs taking tokens (takeRounds taking bound tokens).1 (takeRounds taking bound tokens).2 := by
  induction bound generalizing tokens with
  | zero =>
    refine .stop ?_
    cases taken : taking tokens with
    | none => rfl
    | some pair => exact absurd (shortens.length_lt taken) (by omega)
  | succ bound ih =>
    rw [takeRounds]
    cases taken : taking tokens with
    | none => exact .stop taken
    | some pair =>
      have fewer := shortens.length_lt taken
      exact .again taken (ih (by omega))

theorem Shortens.runs_takeAll (shortens : taking.Shortens) (tokens : List τ) :
    Runs taking tokens (takeAll taking tokens).1 (takeAll taking tokens).2 :=
  shortens.runs_takeRounds (Nat.le_refl _)

theorem Runs.unique {stop : List τ} {others : List γ} (first : Runs taking tokens values rest)
    (second : Runs taking tokens others stop) : values = others ∧ rest = stop := by
  induction first generalizing others with
  | stop refused =>
    cases second with
    | stop _ => exact ⟨rfl, rfl⟩
    | again taken _ => rw [refused] at taken; cases taken
  | again taken _ ih =>
    cases second with
    | stop refused => rw [refused] at taken; cases taken
    | again same later =>
      rw [taken] at same
      cases same
      obtain ⟨rfl, rfl⟩ := ih later
      exact ⟨rfl, rfl⟩

section Shortens

variable (shortens : taking.Shortens)

include shortens

theorem Shortens.takeAll_eq (runs : Runs taking tokens values rest) :
    takeAll taking tokens = (values, rest) := by
  obtain ⟨same, left⟩ := Runs.unique runs (shortens.runs_takeAll tokens)
  rw [same, left]

theorem Shortens.takeMany_eq (runs : Runs taking tokens values rest) :
    takeMany taking tokens = some (values, rest) :=
  congrArg some (shortens.takeAll_eq runs)

/-- A repetition that has to take something takes it first. -/
theorem Shortens.runs_takeSome (found : Reflow.takeSome taking tokens = some (values, rest)) :
    (taking tokens).isSome ∧ Runs taking tokens values rest := by
  have runs := shortens.runs_takeAll tokens
  unfold Reflow.takeSome at found
  split at found
  · next first =>
    rw [some.inj found] at runs
    exact ⟨first, runs⟩
  · cases found

/-- A repetition that takes anything takes what runs take. -/
theorem Shortens.takeSome_eq (runs : Runs taking tokens values rest)
    (first : (taking tokens).isSome) :
    Reflow.takeSome taking tokens = some (values, rest) := by
  rw [Reflow.takeSome, if_pos first, shortens.takeAll_eq runs]

/-- A repetition takes what runs take, if they take anything of value. -/
theorem Shortens.takeSome_of_ne_nil
    (runs : Runs taking tokens values rest) (someValue : values ≠ []) :
    Reflow.takeSome taking tokens = some (values, rest) := by
  refine shortens.takeSome_eq runs ?_
  cases runs with
  | stop _ => exact absurd rfl someValue
  | again taken _ => rw [taken]; rfl

end Shortens

section Gives

variable (gives : taking.Gives holds) (adds : Adds holds)

include gives adds

/-- What runs take, and what it holds. -/
theorem Gives.runs
    (runs : Runs taking tokens values rest) :
    ∃ taken, tokens = taken ++ rest ∧ holds taken values := by
  induction runs with
  | stop _ => exact ⟨[], rfl, adds.nil⟩
  | again first _ ih =>
    obtain ⟨taken, rfl, related⟩ := gives first
    obtain ⟨more, rfl, also⟩ := ih
    exact ⟨taken ++ more, (append_assoc ..).symm, adds.append related also⟩

theorem Gives.takeMany
    (shortens : taking.Shortens) : (takeMany taking).Gives holds := by
  intro tokens values rest found
  have runs := shortens.runs_takeAll tokens
  rw [some.inj found] at runs
  exact gives.runs adds runs

theorem Gives.takeSome
    (shortens : taking.Shortens) : (takeSome taking).Gives holds :=
  fun _ _ _ found => gives.runs adds (shortens.runs_takeSome found).2

end Gives

theorem Shortens.any_takeMany (shortens : taking.Shortens) :
    (takeMany taking).Gives fun _ _ => True :=
  shortens.any.takeMany ⟨trivial, fun _ _ => trivial⟩ shortens

theorem Shortens.exists_taken (shortens : taking.Shortens) (runs : Runs taking tokens values rest) :
    ∃ taken, tokens = taken ++ rest := by
  obtain ⟨taken, whole, _⟩ := shortens.any.runs ⟨trivial, fun _ _ => trivial⟩ runs
  exact ⟨taken, whole⟩

theorem Shortens.takeSome (shortens : taking.Shortens) : (takeSome taking).Shortens := by
  intro tokens values rest found
  obtain ⟨first, runs⟩ := shortens.runs_takeSome found
  cases runs with
  | stop refused => rw [refused] at first; cases first
  | again taken later =>
    obtain ⟨front, rfl, someToken⟩ := shortens taken
    obtain ⟨more, rfl⟩ := shortens.exists_taken later
    exact ⟨front ++ more, (append_assoc ..).symm, by simp [someToken]⟩

end Taking

theorem takeAll_takeOne (value? : τ → Option (List γ)) (tokens : List τ) :
    takeAll (takeOne value?) tokens =
      ((tokens.takeWhile fun token => (value? token).isSome).flatMap fun token =>
          (value? token).getD [],
        tokens.dropWhile fun token => (value? token).isSome) := by
  induction tokens with
  | nil => rfl
  | cons token tokens ih =>
    rw [takeAll] at ih
    rw [takeAll, length_cons, takeRounds, takeOne]
    cases value : value? token with
    | none => simp [value]
    | some values => simp [value, ih]

/-- Tokens that have a value are taken up to the first one that has none. -/
theorem exists_of_takeText_takeSome {made : List δ}
    (found : takeText lexer make (takeSome (takeOne value?)) tokens = some (made, rest)) :
    ∃ first more, tokens = first :: more ++ rest ∧
      (∀ token ∈ first :: more, (value? token).isSome) ∧
      made = make ((first :: more).flatMap fun token => (value? token).getD [])
        (unlines ((first :: more).flatMap lexer.source)) ∧
      ∀ token ∈ rest.head?, value? token = none := by
  obtain ⟨⟨values, left⟩, taken, same⟩ := map_eq_some_iff.mp found
  obtain rfl : left = rest := (Prod.mk.inj same).2
  obtain ⟨someValue, _⟩ := (shortens_takeOne value?).runs_takeSome taken
  have all := taken
  rw [takeSome, if_pos someValue, takeAll_takeOne] at all
  obtain ⟨sameValues, behind⟩ := Prod.mk.inj (some.inj all)
  cases tokens with
  | nil => cases someValue
  | cons first tokens =>
    have value : (value? first).isSome := by simpa [takeOne] using someValue
    have split : first :: tokens =
        first :: tokens.takeWhile (fun token => (value? token).isSome) ++ left := by
      simp [← behind, value]
    rw [split] at taken found
    rw [takeText_append taken] at found
    refine ⟨first, tokens.takeWhile fun token => (value? token).isSome, split, ?_, ?_, ?_⟩
    · exact forall_mem_cons.mpr ⟨value, all_eq_true.mp all_takeWhile⟩
    · rw [← (Prod.mk.inj (some.inj found)).1, ← sameValues]
      simp [value]
    · intro token head
      rw [← behind] at head
      simpa using dropWhile_refuses (fun token => (value? token).isSome) _ token head

namespace Reads

variable (reads : Reads lexer tail reader look taking) (splits : reader.Splits)
  (shortens : taking.Shortens)

include reads splits shortens

/-- The rounds of a reader are the rounds of its taking. -/
theorem rounds (runs : Runs taking tokens values rest) (scans : lexer.Scans tokens stop)
    (enough : tokens.length < bound) (count : Nat) :
    ∃ parts front, tokens = front ++ rest ∧
      reader.rounds none bound count (lexer.text tokens stop tail) =
        (parts, lexer.text rest stop tail) ∧
      parts.flatMap look = values ∧ parts.isEmpty = (taking tokens).isNone := by
  induction runs generalizing bound count with
  | stop refused =>
    cases bound with
    | zero => cases enough
    | succ bound =>
      have read := reads.of_none scans refused
      refine ⟨[], [], rfl, ?_, rfl, by rw [refused]; rfl⟩
      simp [rounds, belowMost, read]
  | again taken later ih =>
    rename_i tokens rest last values others
    cases bound with
    | zero => cases enough
    | succ bound =>
      have fewer := shortens.length_lt taken
      have smaller : rest.length < bound := by omega
      obtain ⟨part, front, rfl, found, seen⟩ := reads.of_some scans taken
      have moved : part.chars ≠ [] := by
        have someToken : front ≠ [] := by
          rintro rfl
          exact Nat.lt_irrefl _ fewer
        obtain ⟨token, more, rfl⟩ := exists_cons_of_ne_nil someToken
        have someLine := (scans.known token (by simp)).source_ne_nil
        intro nothing
        rw [splits.chars_eq found] at nothing
        have empty := unlines_eq_nil nothing
        rw [flatMap_cons] at empty
        exact someLine (append_eq_nil_iff.mp empty).1
      obtain ⟨parts, fronts, rfl, read, valuesRead, _⟩ :=
        ih scans.drop smaller (count + 1)
      refine ⟨part :: parts, front ++ fronts, (append_assoc ..).symm, ?_, ?_, ?_⟩
      · simp [rounds, belowMost, found, moved, read]
      · rw [flatMap_cons, seen, valuesRead]
      · rw [taken]
        rfl

theorem many (joins : Part.Joins look) :
    Reads lexer tail (reader.repetition 0 none) look (takeMany taking) := by
  intro tokens stop scans
  obtain ⟨parts, front, whole, read, values, _⟩ :=
    reads.rounds splits shortens (shortens.runs_takeAll tokens) scans (scans.length_lt tail) 0
  refine ⟨.list parts, front, whole, ?_, (joins parts).trans values⟩
  simp only [repetition, read]
  rfl

theorem many1 (joins : Part.Joins look) :
    Reads lexer tail (reader.repetition 1 none) look (takeSome taking) := by
  intro tokens stop scans
  obtain ⟨parts, front, whole, read, values, empty⟩ :=
    reads.rounds splits shortens (shortens.runs_takeAll tokens) scans (scans.length_lt tail) 0
  rw [takeSome]
  cases taken : (taking tokens).isSome with
  | false =>
    rw [isSome_eq_false_iff] at taken
    rw [taken] at empty
    obtain rfl := List.isEmpty_iff.mp empty
    rw [if_neg Bool.false_ne_true]
    simp only [repetition, read]
    rfl
  | true =>
    rw [← not_isSome, taken] at empty
    rw [if_pos rfl]
    refine ⟨.list parts, front, whole, ?_, (joins parts).trans values⟩
    cases parts with
    | nil => cases empty
    | cons part parts =>
      simp only [repetition, read]
      rfl

end Reads

/-! ## Documents -/

theorem Document.firstLine_source {first : Text} (more : List Text) (unbroken : '\n' ∉ first) :
    firstLine (unlines ((first :: more).flatMap Lexer.lines.source)) = first ++ ['\n'] := by
  have source : (first :: more).flatMap Lexer.lines.source = first :: more :=
    flatMap_singleton' _
  rw [source, unlines_cons, firstLine, lines_line _ unbroken]
  rfl

/-- Where a grammar reads elements again and again, a text is read exactly if it falls into lines
that are taken to elements. -/
theorem Document.readWith_elements {γ : Type} {rules : Rules} {grammar : Grammar}
    (built : Grammar.build rules = .ok grammar) (compiles : PatternsCompile rules)
    {root : String} (first : rules.head?.map (·.1) = some root) {levels : Nat}
    (closed : (Expr.reference root).closedWithin rules (levels + 1)) (few : levels ≤ 1000)
    {element : Expr} (defined : bodyOf? rules root = some (.many element))
    {pick : Part → Option γ} {taking : Taking Text γ} (shortens : taking.Shortens)
    (reads : ∀ {tail}, '\n' ∉ tail →
      Reads .lines tail (element.read (readRule rules levels)) (Part.view pick) taking)
    {text : Text} {ofTree : Tree → Option γ}
    (agree : ∀ part offset, StandsAt part.chars text offset →
      ofTree (part.treeAt offset) = pick part) {items : List γ} :
    readWith (Grammar.build rules) (fun tree => tree.captures.filterMap ofTree) text = .ok items ↔
      byteLength text ≤ inputLimit ∧ ∃ lines, Unbroken lines ∧ text = unlines lines ∧
        takeAll taking lines = (items, []) := by
  have splits := splits_readRule rules (levels + 1) root
  have body : readRule rules (levels + 1) root =
      (element.read (readRule rules levels)).repetition 0 none := by
    rw [readRule_of_defined defined, Expr.many, Expr.read_repetition]
  have seen : ∀ {part}, readRule rules (levels + 1) root text = some (part, []) →
      (part.treeAt 0).captures.filterMap ofTree = part.view pick := by
    intro part read
    have stands : StandsAt part.chars text 0 := by
      rw [splits.split read, append_nil]
      exact .whole _
    rw [Part.filterMap_captures agree stands]
    rw [body, repetition] at read
    split at read
    cases read
    rfl
  -- The root takes as many elements as it can, so that nothing is left exactly if all lines are taken.
  have rounds : ∀ {lines tail}, Unbroken lines → '\n' ∉ tail → ∃ part,
      readRule rules (levels + 1) root (unlines lines ++ tail) =
          some (part, unlines (takeAll taking lines).2 ++ tail) ∧
        part.view pick = (takeAll taking lines).1 := by
    intro lines tail unbroken last
    have many := (reads last).many (Expr.splits_read (splits_readRule rules levels) element) shortens
      (Part.joins_view pick)
    obtain ⟨part, _, _, found, values⟩ := many.of_some (Lexer.scans_lines unbroken) rfl
    rw [Lexer.text, Lexer.text, Lexer.linesOf_lines, Lexer.linesOf_lines, ← body] at found
    exact ⟨part, found, values⟩
  rw [readWith_build built compiles first closed few]
  refine and_congr_right fun small => ?_
  constructor
  · rintro ⟨part, read, rfl⟩
    obtain ⟨lines, tail, rfl, unbroken, last⟩ := exists_unlines text
    obtain ⟨again, found, values⟩ := rounds unbroken last
    rw [seen read]
    rw [found] at read
    obtain ⟨rfl, rest⟩ := Prod.mk.inj (some.inj read)
    obtain ⟨all, rfl⟩ := append_eq_nil_iff.mp rest
    exact ⟨lines, unbroken, append_nil _, Prod.ext values.symm (unlines_eq_nil all)⟩
  · rintro ⟨lines, unbroken, rfl, taken⟩
    obtain ⟨part, found, values⟩ := rounds unbroken not_mem_nil
    rw [taken, append_nil, unlines_nil, append_nil] at found
    rw [taken] at values
    exact ⟨part, found, by rw [seen found, values]⟩

end Reflow
