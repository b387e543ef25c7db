import Reflow.Proofs.LineRereading

/-!
# The lines of a line comment

What a line of a line comment looks like, and what a run of such lines is, said without reading
anything: punctuation as long as it can be, one space or a word behind it, and then blanks only or
blanks and a text. Reading a line comment succeeds exactly on texts that fall into such lines, and
gives its longest runs of lines of one class (`parse_eq_ok_iff_runs`).
-/

namespace Reflow.Document.LineComment

open Text Reflow.Expr List

/-! ## Shapes -/

/-- Comment punctuation, and what stands behind it if the punctuation is as long as it can be. -/
inductive Marks : Text → Text → Prop where
  | slashes {more : Nat} {rest : Text} (stops : ∀ c ∈ rest.head?, c ≠ '/' ∧ c ≠ '!') :
      Marks (List.replicate (more + 2) '/') rest
  | exclaimed {more : Nat} {rest : Text} : Marks (List.replicate (more + 2) '/' ++ ['!']) rest
  | hashes {more : Nat} {rest : Text} (stops : ∀ c ∈ rest.head?, c ≠ '#') :
      Marks (List.replicate (more + 1) '#') rest

/-- The lead of a line, and what stands behind it on the line: the lead takes one space with it, and
without one a word follows or nothing does. -/
inductive Leads : Text → Text → Prop where
  | spaced {indent mark body : Text} (indents : Indents indent)
      (marks : Marks mark (' ' :: body)) : Leads (indent ++ mark ++ [' ']) body
  | tight {indent mark body : Text} (indents : Indents indent)
      (marks : Marks mark body) (follows : ∀ c ∈ body.head?, isWordChar c) :
      Leads (indent ++ mark) body

/-- What a line is, given without its line break. -/
inductive Reads : Text → Line → Prop where
  | separator {lead body : Text} (leads : Leads lead body)
      (blank : Indents body) : Reads (lead ++ body) (.separator (lead ++ body))
  | text {lead blanks rest : Text} {c : Char} (leads : Leads lead (blanks ++ c :: rest))
      (indents : ∀ d ∈ blanks, isIndent d) (solid : isBlank c = false) :
      Reads (lead ++ (blanks ++ c :: rest)) (.text { lead, contents := blanks ++ c :: rest })

/-! ## Classifying a line -/

variable {mark rest : Text}

/-- The punctuation that is found is as long as it can be. -/
theorem marks_of_mark? {text : Text} (found : mark? text = some (mark, rest)) :
    Marks mark rest := by
  have run : ∀ (d : Char) (body : Text),
      body.takeWhile (· == d) = List.replicate (body.takeWhile (· == d)).length d := by
    intro d body
    refine eq_replicate_of_mem fun c member => eq_of_beq ?_
    exact all_eq_true.mp all_takeWhile c member
  have stop : ∀ (d : Char) (body : Text), ∀ c ∈ (body.dropWhile (· == d)).head?, c ≠ d := by
    intro d body c first same
    have refused := List.head?_dropWhile_not (· == d) body
    rw [first, same] at refused
    simp at refused
  unfold mark? at found
  split at found
  · next body =>
    have slash := stop '/' body
    split at found
    · cases found
      rw [run '/' body]
      exact .exclaimed
    · next other =>
      cases found
      rw [run '/' body]
      refine .slashes fun c first => ⟨slash c first, ?_⟩
      rintro rfl
      cases behind : body.dropWhile (· == '/') with
      | nil =>
        rw [behind] at first
        cases first
      | cons d tail =>
        rw [behind] at first
        cases first
        exact other tail behind
  · next body =>
    cases found
    rw [run '#' body]
    exact .hashes (stop '#' body)
  · cases found

theorem mark?_of_marks (marks : Marks mark rest) : mark? (mark ++ rest) = some (mark, rest) := by
  have run : ∀ (d : Char) (count : Nat), ∀ c ∈ List.replicate count d, (c == d) :=
    fun d count c member => beq_iff_eq.mpr (eq_of_mem_replicate member)
  cases marks with
  | @slashes more _ stops =>
    have refused : ∀ c ∈ rest.head?, (c == '/') = false :=
      fun c first => beq_false_of_ne (stops c first).1
    obtain ⟨taken, dropped⟩ := takeWhile_stop (run '/' more) refused
    simp only [replicate_succ, cons_append, mark?, taken, dropped]
    cases rest with
    | nil => rfl
    | cons c rest =>
      split
      · next tail same =>
        cases same
        exact absurd rfl (stops '!' rfl).2
      · rfl
  | @exclaimed more =>
    have refused : ∀ c ∈ ('!' :: rest).head?, (c == '/') = false := by simp
    obtain ⟨taken, dropped⟩ := takeWhile_stop (run '/' more) refused
    simp only [replicate_succ, cons_append, append_assoc, nil_append, mark?, taken, dropped]
  | @hashes more _ stops =>
    have refused : ∀ c ∈ rest.head?, (c == '#') = false :=
      fun c first => beq_false_of_ne (stops c first)
    obtain ⟨taken, dropped⟩ := takeWhile_stop (run '#' more) refused
    simp only [replicate_succ, cons_append, mark?, taken, dropped]

theorem Marks.not_isIndent (marks : Marks mark rest) :
    ∀ c ∈ (mark ++ rest).head?, isIndent c = false := by
  intro c first
  cases marks <;> cases first <;> rfl

theorem lead?_eq_some_iff {line lead body : Text} (unbroken : '\n' ∉ line) :
    lead? line = some (lead, body) ↔ line = lead ++ body ∧ Leads lead body := by
  constructor
  · intro found
    have whole := lead?_split found
    refine ⟨whole, ?_⟩
    have indents := indents_takeWhile line
    rw [lead?] at found
    cases marked : mark? (line.dropWhile isIndent) with
    | none =>
      rw [marked] at found
      cases found
    | some pair =>
      obtain ⟨mark, rest⟩ := pair
      have marks := marks_of_mark? marked
      rw [marked] at found
      cases rest with
      | nil =>
        cases found
        exact .tight indents marks (by simp)
      | cons c rest =>
        simp only at found
        split at found
        · next space =>
          cases found
          rw [space] at marks
          exact .spaced indents marks
        · split at found
          · next follows =>
            cases found
            have other : c ≠ '\n' := by
              rintro rfl
              exact unbroken (by rw [whole]; simp)
            refine .tight indents marks fun d first => ?_
            cases first
            simpa [other] using follows
          · cases found
  · rintro ⟨rfl, leads⟩
    cases leads with
    | @spaced indent mark _ indents marks =>
      obtain ⟨taken, dropped⟩ := takeWhile_stop indents marks.not_isIndent
      have whole : indent ++ mark ++ [' '] ++ body = indent ++ (mark ++ ' ' :: body) := by simp
      rw [lead?, whole, taken, dropped, mark?_of_marks marks]
      rfl
    | @tight indent mark _ indents marks follows =>
      obtain ⟨taken, dropped⟩ := takeWhile_stop indents marks.not_isIndent
      rw [lead?, append_assoc, taken, dropped, mark?_of_marks marks]
      cases body with
      | nil => rfl
      | cons c body =>
        have word := follows c rfl
        have other : c ≠ ' ' := by
          rintro rfl
          revert word
          decide
        simp [word, other]

/-- A line is classified by what it looks like. -/
theorem line?_eq_some_iff {line : Text} {kind : Line} (unbroken : '\n' ∉ line) :
    line? line = some kind ↔ Reads line kind := by
  constructor
  · intro found
    rw [line?] at found
    cases front : lead? line with
    | none =>
      rw [front] at found
      cases found
    | some pair =>
      obtain ⟨lead, body⟩ := pair
      obtain ⟨rfl, leads⟩ := (lead?_eq_some_iff unbroken).mp front
      rw [front] at found
      simp only at found
      split at found
      · next blank =>
        cases found
        exact .separator leads (all_eq_true.mp blank)
      · split at found
        · next starts =>
          cases found
          have whole : body.takeWhile isIndent ++ body.dropWhile isIndent = body :=
            takeWhile_append_dropWhile
          have indents := indents_takeWhile body
          rw [startsText] at starts
          cases behind : body.dropWhile isIndent with
          | nil =>
            rw [behind] at starts
            cases starts
          | cons c rest =>
            rw [behind] at starts whole
            rw [← whole] at leads ⊢
            exact .text leads indents (by simpa using starts)
        · cases found
  · intro reads
    cases reads with
    | separator leads blank =>
      rw [line?, (lead?_eq_some_iff unbroken).mpr ⟨rfl, leads⟩]
      exact if_pos (all_eq_true.mpr blank)
    | @text lead blanks rest c leads indents solid =>
      have other : isIndent c = false := by
        rw [← Bool.not_eq_true]
        intro indent
        rw [isBlank_of_isIndent indent] at solid
        cases solid
      have stops : ∀ d ∈ (c :: rest).head?, isIndent d = false := by simp [other]
      have starts : startsText (blanks ++ c :: rest) := by
        rw [startsText, (takeWhile_stop indents stops).2]
        simp [solid]
      rw [line?, (lead?_eq_some_iff unbroken).mpr ⟨rfl, leads⟩]
      simp [other, starts]

theorem map_line?_eq_iff {lines : List Text} {kinds : List Line} (unbroken : Unbroken lines) :
    lines.map line? = kinds.map some ↔ Forall₂ Reads lines kinds := by
  induction lines generalizing kinds with
  | nil => cases kinds <;> simp
  | cons line lines ih =>
    cases kinds with
    | nil => simp
    | cons kind kinds =>
      rw [map_cons, map_cons, List.cons.injEq, forall₂_cons, ih unbroken.tail,
        line?_eq_some_iff (unbroken line mem_cons_self)]

/-! ## Runs -/

/-- Grouping lines makes elements of runs of them. -/
theorem exists_runs (kinds : List Line) :
    ∃ runs : List (List Line), kinds = runs.flatten ∧ Forall₂ MakesUp runs (group kinds) := by
  induction kinds with
  | nil => exact ⟨[], rfl, .nil⟩
  | cons kind kinds ih =>
    obtain ⟨runs, rfl, made⟩ := ih
    rw [group_cons]
    generalize group runs.flatten = items at made
    have alone : ∀ item, MakesUp [kind] item →
        ∃ longer : List (List Line), kind :: runs.flatten = longer.flatten ∧
          Forall₂ MakesUp longer (item :: items) :=
      fun item first => ⟨[kind] :: runs, rfl, .cons first made⟩
    cases made with
    | nil =>
      cases kind with
      | separator line => exact alone _ (.separator line [])
      | text line => exact alone _ (.paragraph line [])
    | @cons run item runs items first made =>
      cases kind with
      | separator line =>
        cases first with
        | separator other run => exact ⟨_, rfl, .cons (.separator line (other :: run)) made⟩
        | paragraph other run => exact alone _ (.separator line [])
      | text line =>
        cases first with
        | separator other run => exact alone _ (.paragraph line [])
        | paragraph other run => exact ⟨_, rfl, .cons (.paragraph line (other :: run)) made⟩

/-- Reading a line comment succeeds exactly on a text of lines that can be classified, none of them
without its line break, and gives what the longest runs of lines of one class make up. -/
theorem parse_eq_ok_iff_runs {text : Text} {items : List Item} : parse text = .ok items ↔
    byteLength text ≤ inputLimit ∧
      ∃ (lines : List Text) (runs : List (List Line)), Unbroken lines ∧
        text = unlines lines ∧ Forall₂ Reads lines runs.flatten ∧
        Forall₂ MakesUp runs items ∧ Alternating items := by
  rw [parse_eq_ok_iff]
  refine and_congr_right fun _ => ?_
  constructor
  · rintro ⟨lines, kinds, unbroken, same, known, rfl⟩
    have reads := (map_line?_eq_iff unbroken).mp known
    have legible : ∀ kind ∈ kinds, kind.Legible := by
      intro kind member
      have found : some kind ∈ lines.map line? := known ▸ mem_map_of_mem member
      obtain ⟨line, listed, classified⟩ := mem_map.mp found
      exact legible_of_line? classified (unbroken line listed)
    obtain ⟨runs, rfl, made⟩ := exists_runs kinds
    exact ⟨lines, runs, unbroken, same, reads, made, (legible_group legible).alternating⟩
  · rintro ⟨lines, runs, unbroken, same, reads, made, alternating⟩
    exact ⟨lines, runs.flatten, unbroken, same, (map_line?_eq_iff unbroken).mpr reads,
      (group_runs made alternating).symm⟩

end Reflow.Document.LineComment
