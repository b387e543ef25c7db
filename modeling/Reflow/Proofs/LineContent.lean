import Reflow.Document.Block.Writing
import Reflow.Proofs.BlockShapes

/-!
# The content of comment lines

The content of a line of a block comment is what is left of it without its indentation, its star and
all white space. Every layout writes lines that hold the content of the header and of the text and
nothing else (`holds_contiguous`, `holds_breaking`, `holds_bullet`).
-/

namespace Reflow.Document.Block

open Text Layout List
open Reflow.Expr (indents_tab)

/-! ## Texts without white space -/

/-- A text without its white space. -/
def solid (text : Text) : Text := text.filter (!isBlank ·)

@[simp] theorem solid_append (first second : Text) :
    solid (first ++ second) = solid first ++ solid second := filter_append ..

variable {text : Text}

theorem solid_of_blank (blank : ∀ c ∈ text, isBlank c) : solid text = [] := by
  refine filter_eq_nil_iff.mpr fun c member => ?_
  simp [blank c member]

theorem solid_of_indents (indents : Indents text) : solid text = [] :=
  solid_of_blank fun c member => isBlank_of_isIndent (indents c member)

theorem solid_of_solid (filled : ∀ c ∈ text, isBlank c = false) : solid text = text :=
  filter_eq_self.mpr fun c member => by simp [filled c member]

theorem solid_cons_blank {c : Char} (blank : isBlank c) (text : Text) :
    solid (c :: text) = solid text :=
  filter_cons_of_neg (by simp [blank])

theorem solid_dropWhile {test : Char → Bool} (blank : ∀ c, test c → isBlank c)
    (text : Text) : solid (text.dropWhile test) = solid text := by
  have whole : text.takeWhile test ++ text.dropWhile test = text := takeWhile_append_dropWhile
  have front : solid (text.takeWhile test) = [] :=
    solid_of_blank fun c member => blank c (all_eq_true.mp all_takeWhile c member)
  rw [← whole, solid_append, front, nil_append, whole]

theorem solid_trimEnd (text : Text) : solid (trimEnd text) = solid text := by
  obtain ⟨back, whole, blank⟩ := exists_dropEndWhile isBlank text
  rw [whole, solid_append, solid_of_blank blank, append_nil]
  exact congrArg solid (by rw [← whole]; rfl)

/-- The words of a text hold all but its white space. -/
theorem flatten_words (text : Text) : (words text).flatten = solid text := by
  have cons : ∀ word rest, (consWord word rest).flatten = word ++ rest.flatten := by
    intro word rest
    unfold consWord
    split
    · next empty => simp [List.isEmpty_iff.mp empty]
    · rfl
  have split : ∀ text, (splitWord text).1 ++ (splitWord text).2.flatten = solid text := by
    intro text
    induction text with
    | nil => rfl
    | cons c rest ih =>
      rw [splitWord]
      cases blank : isBlank c with
      | true =>
        rw [solid_cons_blank blank, ← ih]
        simp [cons]
      | false =>
        have kept : solid (c :: rest) = c :: solid rest :=
          filter_cons_of_pos (by simp [blank])
        rw [kept, ← ih]
        rfl
  rw [words, cons]
  exact split text

theorem solid_joinWords_eq {given : List Text} (isWord : ∀ word ∈ given, IsWord word) :
    solid (joinWords given) = given.flatten := by
  rw [← flatten_words, words_joinWords isWord]

/-! ## Content -/

/-- A line without its indentation, its first star and all white space. -/
def bare (line : Text) : Text := solid ((line.dropWhile isIndent).erase '*')

theorem bare_star {front : Text} (indents : Indents front)
    (text : Text) : bare (front ++ '*' :: text) = solid text := by
  have stop : ∀ c ∈ ('*' :: text).head?, isIndent c = false := by
    intro c first
    cases first
    rfl
  rw [bare, (takeWhile_stop indents stop).2, erase_cons_head]

theorem bare_of_star? {line front rest : Text} (star : star? line = some (front, rest)) :
    bare line = solid rest := by
  obtain ⟨indents, rfl, inside⟩ := exists_of_star? star
  rw [star?_split star, append_assoc]
  exact bare_star inside rest

theorem bare_lead {lead : Text} (isLead : IsLead lead) (text : Text) :
    bare (lead ++ text) = solid text := by
  obtain ⟨front, blanks, rfl, outside, inside, _⟩ := isLead
  rw [append_assoc, cons_append, bare_star outside, solid_append,
    solid_of_indents inside, nil_append]

/-- Trimming a line of a comment leaves its content. -/
theorem bare_trimEnd {lead : Text} (isLead : IsLead lead) (text : Text) :
    bare (trimEnd (lead ++ text)) = solid text := by
  obtain ⟨front, blanks, rfl, outside, inside, _⟩ := isLead
  have kept : trimEnd (front ++ '*' :: (blanks ++ text)) = front ++ '*' :: trimEnd (blanks ++ text) :=
    dropEndWhile_kept rfl front _
  rw [append_assoc, cons_append, kept, bare_star outside, solid_trimEnd, solid_append,
    solid_of_indents inside, nil_append]

/-- The line break of a line is no content. -/
theorem bare_newline (line : Text) : bare (line ++ ['\n']) = bare line := by
  have front : (line ++ ['\n']).dropWhile isIndent = line.dropWhile isIndent ++ ['\n'] :=
    dropWhile_line isIndent rfl line []
  have blank : solid ['\n'] = [] := rfl
  rw [bare, bare, front]
  by_cases star : '*' ∈ line.dropWhile isIndent
  · rw [erase_append_left _ star, solid_append, blank, append_nil]
  · have breakOnly : ['\n'].erase '*' = ['\n'] := rfl
    rw [erase_append_right _ star, breakOnly, erase_of_not_mem star, solid_append, blank,
      append_nil]

/-- A text is made of complete lines with some content. -/
def Holds (text content : Text) : Prop :=
  ∃ lines, Unbroken lines ∧ text = unlines lines ∧ content = lines.flatMap bare

theorem Holds.nil : Holds [] [] := ⟨[], by simp [Unbroken], rfl, rfl⟩

theorem Holds.append {first second content more : Text} (holds : Holds first content)
    (holdsLater : Holds second more) : Holds (first ++ second) (content ++ more) := by
  obtain ⟨lines, unbroken, rfl, rfl⟩ := holds
  obtain ⟨others, unbrokenLater, rfl, rfl⟩ := holdsLater
  exact ⟨lines ++ others, forall_mem_append.mpr ⟨unbroken, unbrokenLater⟩,
    (unlines_append ..).symm, flatMap_append.symm⟩

theorem Holds.flatMap {α : Type} {items : List α} {write content : α → Text}
    (each : ∀ item ∈ items, Holds (write item) (content item)) :
    Holds (items.flatMap write) (items.flatMap content) := by
  induction items with
  | nil => exact .nil
  | cons item items ih =>
    rw [flatMap_cons, flatMap_cons]
    refine (each item mem_cons_self).append (ih fun other member => ?_)
    exact each other (mem_cons_of_mem _ member)

theorem Holds.line {line : Text} (unbroken : '\n' ∉ line) : Holds (line ++ ['\n']) (bare line) :=
  ⟨[line], by simpa [Unbroken] using unbroken, by simp [unlines], by simp⟩

/-- The content that a text holds is that of its lines. -/
theorem Holds.eq_lines {content : Text} (holds : Holds text content) :
    (lines text).flatMap bare = content := by
  obtain ⟨given, unbroken, rfl, rfl⟩ := holds
  induction given with
  | nil => rfl
  | cons line given ih =>
    rw [unlines_cons, lines_line _ (unbroken line mem_cons_self), flatMap_cons,
      bare_newline, ih unbroken.tail, flatMap_cons]

theorem unbroken_trimEnd (unbroken : '\n' ∉ text) : '\n' ∉ trimEnd text := by
  obtain ⟨back, whole, _⟩ := exists_dropEndWhile isBlank text
  rw [whole] at unbroken
  exact fun member => unbroken (mem_append_left _ member)

/-! ## Layouts -/

/-- The lines that are filled with the words of a text hold its content. -/
theorem flatten_flatten_fillWords (wrap : Wrap) (text : Text) :
    (wrap.fillWords (words text)).flatten.flatten = solid text := by
  rw [wrap.flatten_fillWords, flatten_words]

section Layouts

variable {lead : Text} (isLead : IsLead lead)

include isLead

theorem holds_leadLines {filled : List (List Text)}
    (isWord : ∀ given ∈ filled, ∀ word ∈ given, IsWord word) :
    Holds (leadLines lead (filled.map joinWords)) filled.flatten.flatten := by
  have each : ∀ given ∈ filled, Holds (lead ++ joinWords given ++ ['\n']) given.flatten := by
    intro given member
    have unbroken := unbroken_joinWords (isWord given member)
    have line := Holds.line (not_mem_append isLead.unbroken unbroken)
    rw [bare_lead isLead, solid_joinWords_eq (isWord given member)] at line
    exact line
  have all := Holds.flatMap each
  rw [leadLines, flatMap_map, flatten_flatten]
  exact all

theorem holds_hanging {header deeper alone : Text} (unbroken : '\n' ∉ header)
    (indents : Indents deeper) (holds : Holds (alone ++ ['\n']) (solid header))
    {filled : List (List Text)} (isWord : ∀ given ∈ filled, ∀ word ∈ given, IsWord word) :
    Holds (hanging lead header deeper alone filled) (solid header ++ filled.flatten.flatten) := by
  cases filled with
  | nil => simpa [hanging] using holds
  | cons first rest =>
    obtain ⟨isWordFirst, isWordRest⟩ := forall_mem_cons.mp isWord
    have unbrokenFirst := not_mem_append unbroken (unbroken_joinWords isWordFirst)
    have line := Holds.line (not_mem_append isLead.unbroken unbrokenFirst)
    rw [bare_lead isLead, solid_append, solid_joinWords_eq isWordFirst] at line
    simpa [hanging] using line.append (holds_leadLines (isLead.append indents) isWordRest)

theorem holds_contiguous (ctx : Context) {header : Text} (unbroken : '\n' ∉ header) (text : Text) :
    Holds (contiguous ctx lead header text) (solid header ++ solid text) := by
  obtain ⟨wrap, deeper, _, indents, layout⟩ := contiguous_eq ctx lead header text
  have line := Holds.line (unbroken_trimEnd (not_mem_append isLead.unbroken unbroken))
  rw [bare_trimEnd isLead] at line
  rw [layout, ← flatten_flatten_fillWords wrap text]
  exact holds_hanging isLead unbroken indents line (wrap.isWord_of_mem_lines text)

theorem holds_breaking (ctx : Context) {head bodyLead : Text} (unbroken : '\n' ∉ head)
    (isLeadBody : IsLead bodyLead) (text : Text) :
    Holds (breaking ctx (lead ++ head) bodyLead text) (solid head ++ solid text) := by
  obtain ⟨wrap, _, layout⟩ := breaking_eq ctx (lead ++ head) bodyLead text
  have line := Holds.line (unbroken_trimEnd (not_mem_append isLead.unbroken unbroken))
  rw [bare_trimEnd isLead] at line
  have later := holds_leadLines isLeadBody (wrap.isWord_of_mem_lines text)
  rw [flatten_flatten_fillWords] at later
  rw [layout]
  exact line.append later

theorem holds_bullet (ctx : Context) {start : Text} (unbroken : '\n' ∉ start)
    (text : Text) : Holds (bullet ctx lead start text) (solid start ++ solid text) := by
  obtain ⟨wrap, _, layout⟩ := bullet_eq ctx lead start text
  have line := Holds.line (not_mem_append isLead.unbroken unbroken)
  rw [bare_lead isLead] at line
  rw [layout, ← flatten_flatten_fillWords wrap text]
  exact holds_hanging isLead unbroken indents_tab line (wrap.isWord_of_mem_lines text)

end Layouts

theorem unbroken_dedent {given : List Text} (unbroken : Unbroken given) :
    Unbroken (dedent given) := by
  intro line member
  obtain ⟨source, inside, rfl⟩ := mem_map.mp member
  split
  · exact not_mem_nil
  · exact fun found => unbroken source inside (mem_of_mem_drop found)

end Reflow.Document.Block
