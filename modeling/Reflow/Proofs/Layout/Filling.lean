import Reflow.Layout.Lines

/-!
# Words and the lines they fill

The words of a text are read off it one blank at a time (`words_append_blank`), and joining words
with single spaces is undone by splitting (`words_joinWords`). Filling cuts the units of a text into
runs, one for each line, that keep to their budgets and are as long as they can be
(`fillWords_isFilling`): it drops no word, leaves no line empty and begins no later line with a
sticky word.
-/

namespace Reflow

open Text List

variable {word text : Text} {c : Char}

namespace Text

/-! ## Words -/

/-- A run of characters that are not white space. -/
structure IsWord (word : Text) : Prop where
  nonempty : word ≠ []
  solid : ∀ c ∈ word, isBlank c = false

theorem consWord_append (word : Text) (first second : List Text) :
    consWord word (first ++ second) = consWord word first ++ second := by
  unfold consWord
  split <;> rfl

theorem isWord_of_mem_consWord {first : Text} {rest : List Text}
    (solid : ∀ c ∈ first, isBlank c = false) (later : ∀ word ∈ rest, IsWord word)
    (member : word ∈ consWord first rest) : IsWord word := by
  unfold consWord at member
  split at member
  · exact later word member
  · next someChar =>
    rcases mem_cons.mp member with rfl | member
    · exact ⟨by simpa using someChar, solid⟩
    · exact later word member

theorem splitWord_append_blank (blank : isBlank c) (first second : Text) :
    splitWord (first ++ c :: second) =
      ((splitWord first).1, (splitWord first).2 ++ words second) := by
  induction first with
  | nil => simp [splitWord, blank, words]
  | cons d first ih =>
    rw [cons_append, splitWord, splitWord, ih]
    cases isBlank d with
    | true => simp [consWord_append]
    | false => simp

theorem words_append_blank (blank : isBlank c) (first second : Text) :
    words (first ++ c :: second) = words first ++ words second := by
  rw [words, splitWord_append_blank blank]
  exact consWord_append _ _ _

theorem splitWord_of_solid (solid : ∀ c ∈ word, isBlank c = false) :
    splitWord word = (word, []) := by
  induction word with
  | nil => rfl
  | cons c word ih =>
    have later := ih (forall_mem_cons.mp solid).2
    simp [splitWord, later, solid c mem_cons_self]

theorem IsWord.words_eq (isWord : IsWord word) : words word = [word] := by
  simp [words, splitWord_of_solid isWord.solid, consWord, isWord.nonempty]

/-- What splitting finds at the front is solid, and what it finds behind are words. -/
theorem splitWord_spec (text : Text) :
    (∀ c ∈ (splitWord text).1, isBlank c = false) ∧ ∀ word ∈ (splitWord text).2, IsWord word := by
  induction text with
  | nil => simp [splitWord]
  | cons c rest ih =>
    obtain ⟨solid, later⟩ := ih
    rw [splitWord]
    cases blank : isBlank c with
    | false =>
      exact ⟨forall_mem_cons.mpr ⟨blank, solid⟩, later⟩
    | true => exact ⟨by simp, fun word member => isWord_of_mem_consWord solid later member⟩

theorem isWord_of_mem_words (member : word ∈ words text) : IsWord word :=
  isWord_of_mem_consWord (splitWord_spec text).1 (splitWord_spec text).2 member

theorem head?_words (solid : isBlank c = false) (rest : Text) :
    ∃ word later, words (c :: rest) = (c :: word) :: later := by
  refine ⟨(splitWord rest).1, (splitWord rest).2, ?_⟩
  simp [words, splitWord, solid, consWord]

theorem words_dropWhile {test : Char → Bool} (blank : ∀ c, test c → isBlank c)
    (text : Text) : words (text.dropWhile test) = words text := by
  induction text with
  | nil => rfl
  | cons c rest ih =>
    cases taken : test c with
    | false => rw [dropWhile_cons_of_neg (by rw [taken]; simp)]
    | true =>
      have skipped : words (c :: rest) = words rest := words_append_blank (blank c taken) [] rest
      rw [dropWhile_cons_of_pos taken, ih, skipped]

theorem isBlank_of_isIndent (indent : isIndent c) : isBlank c := by
  simp only [isIndent, Bool.or_eq_true, beq_iff_eq] at indent
  rcases indent with rfl | rfl <;> rfl

theorem indents_takeWhile (line : Text) : Indents (line.takeWhile isIndent) :=
  all_eq_true.mp all_takeWhile

theorem Indents.append {front back : Text} (indents : Indents front) (more : Indents back) :
    Indents (front ++ back) :=
  forall_mem_append.mpr ⟨indents, more⟩

/-! ## Trimming -/

section Trimming

variable {test : Char → Bool}

theorem dropEndWhile_of_all (all : ∀ c ∈ text, test c) : dropEndWhile test text = [] := by
  induction text with
  | nil => rfl
  | cons c rest ih =>
    rw [dropEndWhile, ih (forall_mem_cons.mp all).2]
    exact if_pos (all c mem_cons_self)

theorem dropEndWhile_append {front back : Text} (all : ∀ c ∈ back, test c) :
    dropEndWhile test (front ++ back) = dropEndWhile test front := by
  induction front with
  | nil => exact dropEndWhile_of_all all
  | cons c front ih => rw [cons_append, dropEndWhile, dropEndWhile, ih]

theorem dropEndWhile_eq_self (last : ∀ c ∈ text.getLast?, test c = false) :
    dropEndWhile test text = text := by
  induction text with
  | nil => rfl
  | cons c rest ih =>
    cases rest with
    | nil => simp [dropEndWhile, last c rfl]
    | cons d rest =>
      rw [dropEndWhile, ih fun e member => last e (by simpa using member)]

theorem dropEndWhile_kept (kept : test c = false) (front back : Text) :
    dropEndWhile test (front ++ c :: back) = front ++ c :: dropEndWhile test back := by
  induction front with
  | nil =>
    rw [nil_append, nil_append, dropEndWhile]
    split
    · next noneLeft => rw [noneLeft, if_neg (by rw [kept]; exact Bool.false_ne_true)]
    · rfl
  | cons d front ih =>
    rw [cons_append, dropEndWhile, ih]
    split
    · next impossible => simp at impossible
    · rfl

/-- What is dropped at the end satisfies the test. -/
theorem exists_dropEndWhile (test : Char → Bool) (text : Text) :
    ∃ back, text = dropEndWhile test text ++ back ∧ ∀ c ∈ back, test c := by
  induction text with
  | nil => exact ⟨[], rfl, by simp⟩
  | cons c rest ih =>
    obtain ⟨back, whole, all⟩ := ih
    rw [dropEndWhile]
    split
    · next noneLeft =>
      rw [noneLeft, nil_append] at whole
      subst whole
      split
      · next dropped => exact ⟨c :: rest, rfl, by simpa [dropped] using all⟩
      · exact ⟨rest, rfl, all⟩
    · exact ⟨back, congrArg _ whole, all⟩

end Trimming

end Text

namespace Layout

theorem joinWords_cons_cons (word next : Text) (rest : List Text) :
    joinWords (word :: next :: rest) = word ++ ' ' :: joinWords (next :: rest) := rfl

/-- Joined words begin with the first one, and a space comes behind it if anything does. -/
theorem joinWords_cons (word : Text) (rest : List Text) :
    ∃ tail, joinWords (word :: rest) = word ++ tail ∧ ∀ c ∈ tail.head?, c = ' ' := by
  cases rest with
  | nil => exact ⟨[], (append_nil _).symm, by simp⟩
  | cons next rest => exact ⟨' ' :: joinWords (next :: rest), rfl, by simp⟩

theorem joinWords_append {first second : List Text} (someWord : first ≠ []) (more : second ≠ []) :
    joinWords (first ++ second) = joinWords first ++ ' ' :: joinWords second := by
  induction first with
  | nil => exact absurd rfl someWord
  | cons word rest ih =>
    cases rest with
    | nil =>
      obtain ⟨next, others, rfl⟩ := exists_cons_of_ne_nil more
      rfl
    | cons next rest =>
      have later := ih (cons_ne_nil _ _)
      simpa [joinWords_cons_cons] using later

variable {given : List Text}

theorem mem_joinWords (member : c ∈ joinWords given) : c = ' ' ∨ ∃ word ∈ given, c ∈ word := by
  induction given with
  | nil => cases member
  | cons word rest ih =>
    cases rest with
    | nil => exact .inr ⟨word, mem_cons_self, member⟩
    | cons next rest =>
      rw [joinWords_cons_cons] at member
      rcases mem_append.mp member with here | later
      · exact .inr ⟨word, mem_cons_self, here⟩
      · rcases mem_cons.mp later with space | later
        · exact .inl space
        · rcases ih later with space | ⟨other, inside, found⟩
          · exact .inl space
          · exact .inr ⟨other, mem_cons_of_mem _ inside, found⟩

theorem words_joinWords (isWord : ∀ word ∈ given, IsWord word) :
    words (joinWords given) = given := by
  induction given with
  | nil => rfl
  | cons word rest ih =>
    have here := (isWord word mem_cons_self).words_eq
    have later := ih (forall_mem_cons.mp isWord).2
    cases rest with
    | nil => exact here
    | cons next rest =>
      rw [joinWords_cons_cons, words_append_blank rfl, here, later, singleton_append]

theorem solid_joinWords (isWord : ∀ word ∈ given, IsWord word) :
    ∀ c ∈ (joinWords given).head?, isBlank c = false := by
  intro c found
  cases given with
  | nil => cases found
  | cons word rest =>
    have first := isWord word mem_cons_self
    obtain ⟨tail, joined, _⟩ := joinWords_cons word rest
    obtain ⟨d, chars, rfl⟩ := exists_cons_of_ne_nil first.nonempty
    rw [joined] at found
    cases found
    exact first.solid _ mem_cons_self

theorem unbroken_joinWords (isWord : ∀ word ∈ given, IsWord word) : '\n' ∉ joinWords given := by
  intro member
  rcases mem_joinWords member with space | ⟨word, inside, found⟩
  · cases space
  · cases (isWord word inside).solid _ found

theorem joinWords_ne_nil (isWord : IsWord word) (rest : List Text) :
    joinWords (word :: rest) ≠ [] := by
  obtain ⟨tail, joined, _⟩ := joinWords_cons word rest
  rw [joined]
  exact append_ne_nil_of_left_ne_nil isWord.nonempty _

theorem last_joinWords (isWord : ∀ word ∈ given, IsWord word) :
    ∀ c ∈ (joinWords given).getLast?, isBlank c = false := by
  induction given with
  | nil => simp [joinWords]
  | cons word rest ih =>
    have later := ih (forall_mem_cons.mp isWord).2
    cases rest with
    | nil =>
      intro c last
      exact (isWord word mem_cons_self).solid c (mem_of_getLast? last)
    | cons next rest =>
      have someChar := joinWords_ne_nil (isWord next (by simp)) rest
      have same := List.getLast?_eq_some_getLast someChar
      rw [same] at later
      rw [joinWords_cons_cons, append_cons, List.getLast?_append, same, Option.some_or]
      exact later

/-! ## Units -/

/-- A word and sticky words after it. -/
def IsUnit (sticky : Sticky) : List Text → Prop
  | [] => False
  | _ :: glued => ∀ word ∈ glued, sticky word = true

def BeginsFree (sticky : Sticky) (unit : List Text) : Prop :=
  ∀ word ∈ unit.head?, sticky word = false

section Units

variable (sticky : Sticky) (word : Text) (groups : List (List Text))

theorem flatten_consUnit : (consUnit sticky word groups).flatten = word :: groups.flatten := by
  unfold consUnit
  split
  · split <;> rfl
  · rfl

theorem isUnit_of_mem_consUnit (ih : ∀ unit ∈ groups, IsUnit sticky unit) :
    ∀ unit ∈ consUnit sticky word groups, IsUnit sticky unit := by
  have single : IsUnit sticky [word] := fun _ member => nomatch member
  intro unit member
  unfold consUnit at member
  split at member
  · next next glued later =>
    split at member
    · next stuck =>
      rcases mem_cons.mp member with rfl | member
      · intro other inside
        rcases mem_cons.mp inside with rfl | inside
        · exact stuck
        · exact ih _ mem_cons_self other inside
      · exact ih unit (mem_cons_of_mem _ member)
    · rcases mem_cons.mp member with rfl | member
      · exact single
      · exact ih unit member
  · rcases mem_cons.mp member with rfl | member
    · exact single
    · exact ih unit member

theorem beginsFree_of_mem_tail_consUnit (ih : ∀ unit ∈ groups.tail, BeginsFree sticky unit) :
    ∀ unit ∈ (consUnit sticky word groups).tail, BeginsFree sticky unit := by
  intro unit member
  unfold consUnit at member
  split at member
  · next next glued later =>
    split at member
    · exact ih unit member
    · next free =>
      rcases mem_cons.mp member with rfl | member
      · intro first same
        cases same
        exact eq_false_of_ne_true free
      · exact ih unit member
  · next other =>
    cases groups with
    | nil => cases member
    | cons first later =>
      rcases mem_cons.mp member with rfl | member
      · cases unit with
        | nil => intro _ impossible; cases impossible
        | cons next glued => exact absurd rfl (other next glued later)
      · exact ih unit member

variable (given : List Text)

theorem flatten_units : (units sticky given).flatten = given := by
  induction given with
  | nil => rfl
  | cons word rest ih => exact (flatten_consUnit sticky word _).trans (congrArg _ ih)

theorem isUnit_of_mem_units : ∀ unit ∈ units sticky given, IsUnit sticky unit := by
  induction given with
  | nil => intro unit member; cases member
  | cons word rest ih => exact isUnit_of_mem_consUnit sticky word _ ih

/-- All units but the first begin with a word that may begin a line. -/
theorem beginsFree_of_mem_tail_units :
    ∀ unit ∈ (units sticky given).tail, BeginsFree sticky unit := by
  induction given with
  | nil => intro unit member; cases member
  | cons word rest ih => exact beginsFree_of_mem_tail_consUnit sticky word _ ih

end Units

/-! ## Lines -/

/-- Units that share a line. -/
abbrev Run := List (List Text)

/-- Columns of some units on one line, with one space between neighbours. -/
def runWidth : Run → Nat
  | [] => 0
  | [unit] => unitWidth unit
  | unit :: next :: rest => unitWidth unit + 1 + runWidth (next :: rest)

/-- Whether units may share a line. A single unit may always have a line to itself. -/
def FitsIn (budget : Nat) (run : Run) : Prop := run.length = 1 ∨ runWidth run ≤ budget

theorem runWidth_append {front back : Run} (someFront : front ≠ []) (someBack : back ≠ []) :
    runWidth (front ++ back) = runWidth front + 1 + runWidth back := by
  induction front with
  | nil => exact absurd rfl someFront
  | cons unit front ih =>
    obtain ⟨first, rest, rfl⟩ := exists_cons_of_ne_nil someBack
    cases front with
    | nil => rfl
    | cons next others =>
      have behind := ih (cons_ne_nil _ _)
      rw [cons_append] at behind
      rw [cons_append, cons_append, runWidth, behind, runWidth]
      omega

theorem one_lt_length_concat {run : Run} (someUnit : run ≠ []) (unit : List Text) :
    1 < (run ++ [unit]).length := by
  have positive := length_pos_iff.mpr someUnit
  rw [length_append, length_singleton]
  omega

/-- The lines of some units keep to their budgets. The first line has one of its own and all others
share one. -/
structure IsLayout (later budget : Nat) (groups : Run) (runs : List Run) : Prop where
  cut : runs.flatten = groups
  first : ∀ run ∈ runs.head?, FitsIn budget run
  below : ∀ run ∈ runs.tail, FitsIn later run

/-- Every line holds as many units as it can: the one that begins the next line would not have
fitted. -/
def Full (later : Nat) : Nat → List Run → Prop
  | budget, run :: next :: runs =>
    (∀ unit ∈ next.head?, ¬ FitsIn budget (run ++ [unit])) ∧ Full later later (next :: runs)
  | _, _ => True

/-- Units are filled into lines from the front. -/
structure IsFilling (later budget : Nat) (groups : Run) (runs : List Run) : Prop
    extends IsLayout later budget groups runs where
  someUnit : ∀ run ∈ runs, run ≠ []
  full : Full later budget runs

section Filling

variable {later budget : Nat} {run : Run}

theorem IsFilling.single (someUnit : run ≠ []) (fits : FitsIn budget run) :
    IsFilling later budget run [run] where
  cut := by simp
  first := by simpa using fits
  below := by simp
  someUnit := by simpa using someUnit
  full := trivial

variable {runs : List Run}

/-- A line that the next unit does not fit on stands above the filling that begins with that
unit. -/
theorem IsFilling.cons {unit : List Text} {more rest : Run} (someUnit : run ≠ [])
    (fits : FitsIn budget run) (tooWide : ¬ FitsIn budget (run ++ [unit]))
    (filling : IsFilling later later (unit :: rest) ((unit :: more) :: runs)) :
    IsFilling later budget (run ++ unit :: rest) (run :: (unit :: more) :: runs) where
  cut := by rw [flatten_cons, filling.cut]
  first := by simpa using fits
  below := forall_mem_cons.mpr ⟨filling.first _ rfl, filling.below⟩
  someUnit := forall_mem_cons.mpr ⟨someUnit, filling.someUnit⟩
  full := ⟨by simpa using tooWide, filling.full⟩

theorem IsLayout.tail {groups : Run} (layout : IsLayout later budget groups (run :: runs)) :
    IsLayout later later runs.flatten runs where
  cut := rfl
  first := fun line first => layout.below line (mem_of_head? first)
  below := fun line member => layout.below line (mem_of_mem_tail member)

theorem IsFilling.tail {groups : Run} (filling : IsFilling later budget groups (run :: runs)) :
    IsFilling later later runs.flatten runs where
  toIsLayout := filling.toIsLayout.tail
  someUnit := (forall_mem_cons.mp filling.someUnit).2
  full := by
    cases runs with
    | nil => trivial
    | cons next runs => exact filling.full.2

/-- Filling goes on with a line that already holds some units. -/
theorem fill_isFilling (someUnit : run ≠ []) (fits : FitsIn budget run) (groups : Run) :
    ∃ more runs, fill later budget run.flatten (runWidth run) groups =
        ((run ++ more) :: runs).map List.flatten ∧
      IsFilling later budget (run ++ groups) ((run ++ more) :: runs) := by
  -- The open line is general, and the columns that it has used are the width of its units.
  induction groups generalizing budget run with
  | nil =>
    refine ⟨[], [], by simp [fill], ?_⟩
    rw [append_nil]
    exact .single someUnit fits
  | cons unit rest ih =>
    have wider : runWidth (run ++ [unit]) = runWidth run + 1 + unitWidth unit :=
      runWidth_append someUnit (cons_ne_nil unit [])
    rw [fill]
    split
    next room =>
      have fits : FitsIn budget (run ++ [unit]) := .inr (wider ▸ room)
      obtain ⟨more, runs, same, filling⟩ := ih (by simp) fits
      rw [flatten_append, flatten_singleton, wider] at same
      refine ⟨unit :: more, runs, ?_, ?_⟩
      · rw [same, append_cons run unit more]
      · rwa [append_cons run unit rest, append_cons run unit more]
    next noneLeft =>
      obtain ⟨more, runs, same, filling⟩ := ih (cons_ne_nil unit []) (.inl rfl)
      rw [flatten_singleton, runWidth] at same
      refine ⟨[], (unit :: more) :: runs, ?_, ?_⟩
      · rw [append_nil, map_cons, same, singleton_append]
      · have several := Nat.ne_of_gt (one_lt_length_concat someUnit unit)
        have tooWide : ¬ FitsIn budget (run ++ [unit]) := by
          rintro (single | room)
          · exact several single
          · exact noneLeft (wider ▸ room)
        rw [append_nil]
        exact filling.cons someUnit fits tooWide

end Filling

namespace Wrap

variable (wrap : Wrap) (given : List Text)

/-- The lines of some words fill their units into lines. -/
theorem fillWords_isFilling :
    ∃ runs : List Run, wrap.fillWords given = runs.map List.flatten ∧
      IsFilling (wrap.width - wrap.later) (wrap.width - wrap.initial) (units wrap.sticky given)
        runs := by
  unfold fillWords
  cases units wrap.sticky given with
  | nil => exact ⟨[], rfl, ⟨rfl, by simp, by simp⟩, by simp, trivial⟩
  | cons unit rest =>
    obtain ⟨more, runs, same, filling⟩ :=
      fill_isFilling (cons_ne_nil unit []) (.inl rfl) rest
    refine ⟨_, ?_, filling⟩
    rw [← same, flatten_singleton, runWidth]

/-- The lines of a text are the runs of its units, joined. -/
theorem lines_isFilling (text : Text) :
    ∃ runs : List Run, wrap.lines text = runs.map (fun run => joinWords run.flatten) ∧
      IsFilling (wrap.width - wrap.later) (wrap.width - wrap.initial)
        (units wrap.sticky (words text)) runs := by
  obtain ⟨runs, same, filling⟩ := wrap.fillWords_isFilling (words text)
  refine ⟨runs, ?_, filling⟩
  rw [Wrap.lines, same, map_map]
  rfl

theorem flatten_fillWords : (wrap.fillWords given).flatten = given := by
  obtain ⟨runs, same, filling⟩ := wrap.fillWords_isFilling given
  rw [same, ← flatten_flatten, filling.cut, flatten_units]

theorem ne_nil_of_mem_fillWords : ∀ line ∈ wrap.fillWords given, line ≠ [] := by
  obtain ⟨runs, same, filling⟩ := wrap.fillWords_isFilling given
  have isUnit := isUnit_of_mem_units wrap.sticky given
  rw [← filling.cut] at isUnit
  intro line member
  rw [same] at member
  obtain ⟨run, inside, rfl⟩ := mem_map.mp member
  obtain ⟨unit, more, rfl⟩ := exists_cons_of_ne_nil (filling.someUnit run inside)
  intro empty
  have noneLeft : unit = [] := (append_eq_nil_iff.mp empty).1
  have isUnitHere := isUnit unit (mem_flatten.mpr ⟨_, inside, mem_cons_self⟩)
  rw [noneLeft] at isUnitHere
  exact isUnitHere

/-- Every line but the first begins with a word that may begin a line. -/
theorem begin_of_mem_tail_fillWords : ∀ line ∈ (wrap.fillWords given).tail, ∃ word rest,
    line = word :: rest ∧ wrap.sticky word = false := by
  obtain ⟨runs, same, ⟨cut, -, -⟩, someUnit, -⟩ := wrap.fillWords_isFilling given
  have isUnit := isUnit_of_mem_units wrap.sticky given
  have free := beginsFree_of_mem_tail_units wrap.sticky given
  rw [← cut] at isUnit free
  rw [same]
  cases runs with
  | nil => intro line impossible; cases impossible
  | cons first runs =>
    intro line member
    obtain ⟨run, below, rfl⟩ := mem_map.mp member
    have inside : run ∈ first :: runs := mem_cons_of_mem _ below
    obtain ⟨unit, more, rfl⟩ := exists_cons_of_ne_nil (someUnit run inside)
    obtain ⟨front, units, rfl⟩ := exists_cons_of_ne_nil (someUnit first mem_cons_self)
    have unitMem : unit ∈ units ++ runs.flatten :=
      mem_append_right _ (mem_flatten.mpr ⟨_, below, mem_cons_self⟩)
    cases unit with
    | nil => exact (isUnit [] (mem_cons_of_mem front unitMem)).elim
    | cons word glued => exact ⟨word, glued ++ more.flatten, rfl, free _ unitMem word rfl⟩

/-- A line begins with a word; only the first one may begin with a sticky word, which is then the
first of all. -/
theorem begin_of_mem_fillWords : ∀ line ∈ wrap.fillWords given, ∃ word rest, line = word :: rest ∧
    (wrap.sticky word = false ∨ given.head? = some word) := by
  intro line member
  have below := wrap.begin_of_mem_tail_fillWords given
  have whole := wrap.flatten_fillWords given
  obtain ⟨word, rest, rfl⟩ :=
    exists_cons_of_ne_nil (wrap.ne_nil_of_mem_fillWords given line member)
  refine ⟨word, rest, rfl, ?_⟩
  cases filled : wrap.fillWords given with
  | nil =>
    rw [filled] at member
    cases member
  | cons first later =>
    rw [filled] at member below whole
    rcases mem_cons.mp member with rfl | inside
    · right
      rw [← whole]
      rfl
    · left
      obtain ⟨_, _, same, free⟩ := below _ inside
      cases same
      exact free

theorem isWord_of_mem_fillWords {given : List Text} (isWord : ∀ word ∈ given, IsWord word) :
    ∀ line ∈ wrap.fillWords given, ∀ word ∈ line, IsWord word := by
  intro line member word inside
  refine isWord word ?_
  rw [← wrap.flatten_fillWords given]
  exact mem_flatten.mpr ⟨line, member, inside⟩

theorem isWord_of_mem_lines (text : Text) :
    ∀ line ∈ wrap.fillWords (words text), ∀ word ∈ line, IsWord word :=
  wrap.isWord_of_mem_fillWords fun _ => isWord_of_mem_words

end Wrap

theorem Wrap.fillWords_ne_nil (wrap : Wrap) (someWord : given ≠ []) :
    wrap.fillWords given ≠ [] := by
  intro noneFilled
  apply someWord
  rw [← wrap.flatten_fillWords given, noneFilled, flatten_nil]

end Layout

end Reflow
