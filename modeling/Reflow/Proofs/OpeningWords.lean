import Reflow.Proofs.ConstructRereading
import Reflow.Proofs.ProseReading

/-!
# The word that opens a line

Two tests tell which words may not begin a line that is written, one for block comments and one for
prose. The grammars look at the line instead, with patterns that may reach past its first word: to
the space behind a bullet, or to the end of a label. Wherever such a pattern matches a line of
words, the test holds of the first word, and the words that it holds of for nothing are few
(`opensConstruct_of_isMatch`).
-/

namespace Reflow.Document

open Text Layout Reflow.Expr List Pattern

/-! ## Patterns on lines of words -/

/-- Whether a pattern, compiled for matching at the front of a text, finds a match in it. -/
def Pattern.isMatch (pattern : String) (text : Text) : Bool :=
  ((Regex.anchored? pattern).bind (·.find text)).isSome

/-- A pattern matches where the expression that is this pattern alone reads something. -/
theorem Pattern.isMatch_eq (pattern : String) (rule : String → Reader) (text : Text) :
    isMatch pattern text = ((regex pattern).read rule text).isSome := by
  rw [isMatch, Expr.read]
  cases Regex.anchored? pattern with
  | none => rfl
  | some machine => exact Option.isSome_map.symm

def lineOf (given : List Text) : Text := joinWords given ++ ['\n']

variable {word : Text} {rest : List Text}

/-- A line of words is not indented, so only its very front can open a construct. -/
theorem isMatch_tagStart (isWord : ∀ given ∈ word :: rest, IsWord given) :
    isMatch tagStart (lineOf (word :: rest)) =
      opens (joinWords (word :: rest)) := by
  have unindented : (joinWords (word :: rest)).dropWhile isIndent = joinWords (word :: rest) := by
    have solid := solid_joinWords isWord
    cases joined : joinWords (word :: rest) with
    | nil => rfl
    | cons c chars =>
      rw [joined] at solid
      exact dropWhile_cons_of_neg (by simp [Block.isIndent_of_solid (solid c rfl)])
  rw [isMatch_eq _ fun _ _ => none, lineOf,
    isSome_read_tagStart _ (unbroken_joinWords isWord) (atEnd_newline []), unindented]

/-- A bullet is a word of its own with another word behind it. -/
theorem startsBullet_joinWords (isWord : IsWord word) {after : Text} (ends : AtEnd after) :
    startsBullet (joinWords (word :: rest) ++ after) = (opensBullet word && !rest.isEmpty) := by
  obtain ⟨c, chars, rfl⟩ := exists_cons_of_ne_nil isWord.nonempty
  cases chars with
  | cons d chars =>
    obtain ⟨tail, joined, -⟩ := joinWords_cons (c :: d :: chars) rest
    have apart : d ≠ ' ' := by
      rintro rfl
      cases isWord.solid ' ' (by simp)
    rw [joined]
    simp [startsBullet, opensBullet, apart]
  | nil =>
    have same : opensBullet [c] = isBullet c := by simp [opensBullet, isBullet]
    cases rest with
    | nil =>
      rw [isEmpty_nil, Bool.not_true, Bool.and_false]
      change startsBullet (c :: after) = false
      unfold startsBullet
      split
      · next same =>
        cases same
        cases ends ' ' rfl
      · rfl
    | cons next rest =>
      rw [same, isEmpty_cons, Bool.not_false, Bool.and_true]
      rfl

theorem isMatch_bullet (isWord : IsWord word) :
    isMatch bullet (lineOf (word :: rest)) =
      (opensBullet word && !rest.isEmpty) := by
  rw [isMatch_eq _ fun _ _ => none, lineOf, Prose.isSome_read_bullet,
    startsBullet_joinWords isWord (atEnd_newline [])]

/-! ## Tests on words -/

/-- The marker in front of a word opens its line, unless the word goes on as a word. -/
theorem marks_joinWords {marker : String} {more : Text}
    (ended : ∀ c ∈ more.head?, isWordChar c = false) :
    marks marker (joinWords ((marker.toList ++ more) :: rest)) := by
  obtain ⟨tail, joined, space⟩ := joinWords_cons (marker.toList ++ more) rest
  have found : stripFront? marker.toList (joinWords ((marker.toList ++ more) :: rest)) =
      some (more ++ tail) := by
    rw [stripFront?_eq_some, joined, append_assoc]
  have side : isWordSide (more ++ tail).head? = false := by
    cases more with
    | cons c more => exact ended c rfl
    | nil =>
      cases tail with
      | nil => rfl
      | cons c tail =>
        rw [space c rfl]
        rfl
  rw [marks, found]
  dsimp only
  rw [side]
  rfl

theorem opensConstruct_of_opens (isWord : IsWord word)
    (opened : opens (joinWords (word :: rest))) : opensConstruct word := by
  cases free : opensConstruct word with
  | true => rfl
  | false =>
    obtain ⟨-, quiet⟩ := Block.opening_eq_iff.mp (Block.opening_joinWords isWord free rest)
    rw [opened] at quiet
    cases quiet

/-- The test for block comments holds of a word for nothing only if the word begins with a bracket,
is a bullet with nothing behind it, or goes on as a word behind a marker. -/
theorem opens_of_opensConstruct (isWord : IsWord word) (opened : opensConstruct word) :
    opens (joinWords (word :: rest)) ∨ word.head? = some '[' ∨
      (opensBullet word ∧ rest = []) ∨
      ∃ marker ∈ markers, ∃ c more, word = marker.toList ++ c :: more ∧ isWordChar c := by
  obtain ⟨tail, joined, -⟩ := joinWords_cons word rest
  simp only [opensConstruct, Bool.or_eq_true, beq_iff_eq] at opened
  simp only [opens, Bool.or_eq_true, beq_iff_eq]
  rcases opened with ((marked | bar) | bracket) | bullet
  · obtain ⟨marker, known, front⟩ := any_eq_true.mp marked
    obtain ⟨more, rfl⟩ := isPrefixOf_iff_prefix.mp front
    by_cases ended : ∀ c ∈ more.head?, isWordChar c = false
    · refine .inl (.inl (.inl (.inl ?_)))
      exact any_eq_true.mpr ⟨marker, known, marks_joinWords ended⟩
    · obtain ⟨c, next, movesOn⟩ : ∃ c ∈ more.head?, isWordChar c := by
        simpa using ended
      obtain ⟨behind, rfl⟩ := List.head?_eq_some_iff.mp next
      exact .inr (.inr (.inr ⟨marker, known, c, behind, rfl, movesOn⟩))
  · refine .inl (.inl (.inl (.inr ?_)))
    obtain ⟨chars, rfl⟩ := List.head?_eq_some_iff.mp bar
    rw [joined]
    rfl
  · exact .inr (.inl bracket)
  · cases rest with
    | nil => exact .inr (.inr (.inl ⟨bullet, rfl⟩))
    | cons next rest =>
      have starts : startsBullet (joinWords (word :: next :: rest) ++ []) = _ :=
        startsBullet_joinWords isWord atEnd_nil
      rw [append_nil, bullet] at starts
      exact .inl (.inr starts)

/-- Wherever the lookahead of block comments matches a line of words, the test for block comments
holds of the first one. It holds of few other words: those that begin with a bracket, a bullet with
nothing behind it, and those that go on as a word behind a marker. The bullet of prose matches
exactly if the test for prose holds of the first word and another word follows. -/
theorem opensConstruct_of_isMatch (isWord : ∀ given ∈ word :: rest, IsWord given) :
    (isMatch tagStart (lineOf (word :: rest)) →
      opensConstruct word) ∧
    (opensConstruct word →
      isMatch tagStart (lineOf (word :: rest)) ∨ word.head? = some '[' ∨
        (opensBullet word ∧ rest = []) ∨
        ∃ marker ∈ markers, ∃ c more, word = marker.toList ++ c :: more ∧ isWordChar c) ∧
    (isMatch bullet (lineOf (word :: rest)) ↔
      opensBullet word ∧ rest ≠ []) := by
  have first : IsWord word := isWord word mem_cons_self
  rw [isMatch_tagStart isWord, isMatch_bullet first]
  exact ⟨opensConstruct_of_opens first, opens_of_opensConstruct first, by simp⟩

/-- The label of a link that ends in the second word of its line. -/
def spreadLabel : List Text := ["[a".toList, "b]:".toList, "c".toList]

theorem opensConstruct_spreadLabel :
    (∀ given ∈ spreadLabel, IsWord given) ∧
      isMatch tagStart (lineOf spreadLabel) ∧
      opensConstruct "[a".toList := by
  have isWord : ∀ given ∈ spreadLabel, IsWord given := by
    have split : words "[a b]: c".toList = spreadLabel := rfl
    rw [← split]
    exact fun given => isWord_of_mem_words
  have found : isMatch tagStart (lineOf spreadLabel) := by
    rw [spreadLabel, isMatch_tagStart isWord]
    rfl
  exact ⟨isWord, found, (opensConstruct_of_isMatch isWord).1 found⟩

end Reflow.Document
