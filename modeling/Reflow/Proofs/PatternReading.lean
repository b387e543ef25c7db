import Reflow.Document.Pattern
import Reflow.Proofs.BuiltGrammar
import Reflow.Proofs.Layout.Filling
import Reflow.Regex.Machine.Lockstep

/-!
# What patterns read

An anchored pattern reads the first of the ends that its expression lists. A greedy loop over a
class of characters goes as far as the class does, and where it could stop earlier there is a
character of the class, so what follows the loop decides on its own whether to look there.
-/

namespace Reflow

open List Regex CharClass

namespace CharClass

theorem test_single (c d : Char) : (range d d).test c = (c == d) := by
  rw [Bool.eq_iff_iff]
  simp only [test, Bool.and_eq_true, decide_eq_true_eq, beq_iff_eq]
  constructor
  · rintro ⟨low, high⟩
    exact Char.toNat_inj.mp (Nat.le_antisymm high low)
  · rintro rfl
    exact ⟨Nat.le_refl _, Nat.le_refl _⟩

end CharClass

variable {c : Char} {text : Text} {pattern : String}

namespace Regex

/-! ## Ends of loops over a class -/

variable {chars : CharClass}

theorem ends_set_of_test (member : chars.test c) (before : Option Char) (rest : Text) :
    (set chars).ends ⟨before, c :: rest⟩ = [⟨some c, rest⟩] := by
  simp [ends, member]

/-- A place where a class has no character. -/
def Bars (chars : CharClass) (text : Text) : Prop :=
  ∀ c ∈ text.head?, chars.test c = false

theorem ends_set_of_bars (bars : Bars chars text) (before : Option Char) :
    (set chars).ends ⟨before, text⟩ = [] := by
  cases text with
  | nil => rfl
  | cons c rest => simp [ends, bars c rfl]

/-- The place behind the characters of a class. -/
def siteBehind (chars : CharClass) (site : Site) : Site :=
  ⟨(site.rest.takeWhile chars.test).getLast?.or site.before, site.rest.dropWhile chars.test⟩

/-- A greedy loop over a class first goes behind all its characters, and then stops before one of
them. -/
theorem ends_star_set (chars : CharClass) (site : Site) :
    ∃ others, (star true (set chars)).ends site = siteBehind chars site :: others ∧
      ∀ stop ∈ others, ∃ c rest, stop.rest = c :: rest ∧ chars.test c := by
  obtain ⟨before, text⟩ := site
  have unroll : ∀ site : Site, (star true (set chars)).ends site =
      ((set chars).ends site).flatMap (star true (set chars)).ends ++ [site] := by
    intro site
    have shrinks : ∀ site : Site, ∀ stop ∈ (set chars).ends site,
        stop.rest.length < site.rest.length := fun _ _ reached =>
      length_lt_of_mem_ends rfl reached
    exact loopEnds_length shrinks site
  induction text generalizing before with
  | nil =>
    refine ⟨[], ?_, by simp⟩
    rw [unroll, ends_set_of_bars (by intro c found; cases found)]
    rfl
  | cons c rest ih =>
    rw [unroll]
    cases member : chars.test c with
    | false =>
      refine ⟨[], ?_, by simp⟩
      rw [ends_set_of_bars (by intro d found; cases found; exact member)]
      simp [siteBehind, member]
    | true =>
      obtain ⟨others, later, inside⟩ := ih (some c)
      refine ⟨others ++ [⟨before, c :: rest⟩], ?_, ?_⟩
      · rw [ends_set_of_test member, flatMap_singleton, later]
        simp [siteBehind, member, List.getLast?_cons]
      · intro stop reached
        rcases mem_append.mp reached with earlier | last
        · exact inside stop earlier
        · obtain rfl := mem_singleton.mp last
          exact ⟨c, rest, rfl, member⟩

theorem ends_plus_set (member : chars.test c) (before : Option Char) (rest : Text) :
    ∃ others, (plus true (set chars)).ends ⟨before, c :: rest⟩ =
        siteBehind chars ⟨some c, rest⟩ :: others ∧
      ∀ stop ∈ others, ∃ c rest, stop.rest = c :: rest ∧ chars.test c := by
  obtain ⟨others, later, inside⟩ := ends_star_set chars ⟨some c, rest⟩
  refine ⟨others, ?_, inside⟩
  rw [ends, ends_set_of_test member, flatMap_singleton]
  exact later

theorem ends_plus_of_bars (bars : Bars chars text) (before : Option Char) :
    (plus true (set chars)).ends ⟨before, text⟩ = [] := by
  rw [ends, ends_set_of_bars bars, flatMap_nil]

theorem ends_optional_set (chars : CharClass) (site : Site) :
    (alt (seq (set chars) empty) empty).ends site = (set chars).ends site ++ [site] := by
  simp only [ends, flatMap_singleton']

/-! ## Patterns -/

/-- The rest of a text behind the preferred match at its front. -/
def behind? (regex : Regex) (text : Text) : Option Text :=
  ((regex.ends ⟨none, text⟩).head?).map Site.rest

end Regex

/-- A pattern compiles if it denotes a term that does not take too much storage. -/
theorem Regex.anchored?_of_term {regex : Regex}
    (parsed : ((termOfPattern? ("^(?:".toList ++ pattern.toList ++ [')'])).map fun term =>
      (term.regex, decide (term.totalStorage ≤ storageLimit))) = some (regex, true)) :
    anchored? pattern = some (.ofRegex regex) := by
  obtain ⟨term, denoted, same⟩ := Option.map_eq_some_iff.mp parsed
  obtain ⟨rfl, small⟩ := Prod.mk.inj same
  rw [anchored?, machineOfPattern?, denoted]
  exact if_pos (of_decide_eq_true small)

/-- A pattern is compiled to an expression behind the start of the text. -/
abbrev Compiled (pattern : String) (regex : Regex) : Prop :=
  anchored? pattern = some (.ofRegex (.seq (.anchor .textStart) regex))

/-- An anchored pattern reads up to the first end of its expression. -/
theorem Expr.read_regex {regex : Regex} (compiled : Compiled pattern regex)
    (steady : regex.isSteady) (rule : String → Reader) (input : Text) :
    (Expr.regex pattern).read rule input = (regex.behind? input).map fun rest =>
      (.text (input.take (input.length - rest.length)), rest) := by
  have ends : (seq (.anchor .textStart) regex).ends ⟨none, input⟩ =
      regex.ends ⟨none, input⟩ := by
    simp [ends, Anchor.holds]
  rw [Expr.read, compiled]
  simp only [Reader.machine]
  rw [Machine.find_ofRegex _ (by simpa [isSteady] using steady) rfl, ends, behind?]
  cases (regex.ends ⟨none, input⟩).head? <;> rfl

theorem take_sub_length {input taken rest : Text} (whole : input = taken ++ rest) :
    input.take (input.length - rest.length) = taken := by
  rw [whole, length_append, Nat.add_sub_cancel, take_left]

open Text Document

namespace Expr

variable (rule : String → Reader)

/-! ### Tabs and spaces -/

def indentClass : CharClass := .union (.range '\t' '\t') (.range ' ' ' ')

theorem test_indentClass : indentClass.test = isIndent := by
  funext c
  show ((range '\t' '\t').test c || (range ' ' ' ').test c) = _
  rw [test_single, test_single]
  rfl

theorem compiled_indentation : Compiled Pattern.indentation (.star true (.set indentClass)) :=
  anchored?_of_term (by decide +kernel)

theorem read_indentation (input : Text) :
    (regex Pattern.indentation).read rule input =
      some (.text (input.takeWhile isIndent), input.dropWhile isIndent) := by
  obtain ⟨others, ends, _⟩ := ends_star_set indentClass ⟨none, input⟩
  rw [read_regex compiled_indentation rfl, behind?, ends]
  simp only [siteBehind, test_indentClass, List.head?_cons, Option.map_some]
  rw [take_sub_length (takeWhile_append_dropWhile ..).symm]

/-! ### Single characters -/

theorem compiled_any : Compiled "(?s)." (.set .any) :=
  anchored?_of_term (by decide +kernel)

theorem compiled_word : Compiled "\\w" (.set .word) :=
  anchored?_of_term (by decide +kernel)

theorem behind?_set (chars : CharClass) (input : Text) :
    (set chars).behind? input =
      match input with
      | c :: rest => if chars.test c then some rest else none
      | [] => none := by
  cases input with
  | nil => rfl
  | cons c rest =>
    cases member : chars.test c <;> simp [behind?, ends, member]

theorem isSome_read_any (input : Text) :
    (any.read rule input).isSome = !input.isEmpty := by
  rw [any, read_regex compiled_any rfl, behind?_set]
  cases input <;> rfl

theorem isSome_read_word (input : Text) :
    ((regex "\\w").read rule input).isSome = (input.head?.map isWordChar).getD false := by
  rw [read_regex compiled_word rfl, behind?_set]
  cases input with
  | nil => rfl
  | cons c rest => cases member : isWordChar c <;> simp [test, member]

theorem read_wordAhead (input : Text) :
    (lookahead (regex "\\w") true).read rule input =
      if (input.head?.map isWordChar).getD false then some (.nil, input) else none := by
  rw [read_lookahead, Reader.lookahead, isSome_read_word]

/-- The end of a line: a line break that is left where it is, or the end of the text. -/
theorem read_atLineEnd (input : Text) :
    atLineEnd.read rule input =
      if (input.head?.map (· == '\n')).getD true then some (.nil, input) else none := by
  have ended : eof.read rule input = if input.isEmpty then some (.nil, input) else none := by
    rw [eof, notAhead, read_lookahead, Reader.lookahead, isSome_read_any]
    cases input <;> rfl
  rw [atLineEnd, read_choice, readEach_cons, readEach_cons, readEach_nil, Reader.choice,
    Reader.choice, Reader.choice, ended, read_lookahead, read_literal]
  cases input with
  | nil => rfl
  | cons c rest =>
    by_cases line : c = '\n'
    · subst line
      rfl
    · simp [Reader.lookahead, Reader.literal, stripFront?, line, Ne.symm line]

/-! ### The text of a line -/

/-- Whether a text begins with something other than white space, behind tabs and spaces. -/
def startsText (text : Text) : Bool :=
  match text.dropWhile isIndent with
  | c :: _ => !isBlank c
  | [] => false

theorem indents_tab : Indents ['\t'] := forall_mem_singleton.mpr rfl

theorem indents_space : Indents [' '] := forall_mem_singleton.mpr rfl

theorem ne_newline_of_isIndent (indent : isIndent c) : (c != '\n') = true := by
  simp only [isIndent, Bool.or_eq_true, beq_iff_eq] at indent
  rcases indent with rfl | rfl <;> rfl

theorem ne_newline_of_not_isBlank (solid : isBlank c = false) : (c != '\n') = true := by
  rw [bne_iff_ne]
  rintro rfl
  cases solid

def lineClass : CharClass := .complement (.range '\n' '\n')

theorem test_lineClass : lineClass.test = (· != '\n') := by
  funext c
  show (!(range '\n' '\n').test c) = _
  rw [test_single]
  rfl

theorem compiled_contents :
    Compiled "[\\t ]*\\S.*" (.seq (.star true (.set indentClass))
      (.seq (.set (.complement .blank)) (.star true (.set lineClass)))) :=
  anchored?_of_term (by decide +kernel)

/-- A character that is not blank and what follows it on its line. -/
def solidLine : Regex := .seq (.set (.complement .blank)) (.star true (.set lineClass))

theorem ends_solidLine_of_bars (bars : Regex.Bars (.complement .blank) text)
    (before : Option Char) : solidLine.ends ⟨before, text⟩ = [] := by
  rw [solidLine, ends, ends_set_of_bars bars, flatMap_nil]

/-- A text that does not begin with white space is taken up to the line break. -/
theorem head?_ends_solidLine (before : Option Char) (input : Text) :
    ((solidLine.ends ⟨before, input⟩).head?).map Site.rest =
      if input.head?.any (!isBlank ·) then some (input.dropWhile (· != '\n')) else none := by
  cases input with
  | nil => rfl
  | cons c rest =>
    cases blank : isBlank c with
    | true =>
      rw [ends_solidLine_of_bars]
      · simp [blank]
      · intro d found
        cases found
        simp [test, blank]
    | false =>
      obtain ⟨_, later, _⟩ := ends_star_set lineClass ⟨some c, rest⟩
      have further := bne_iff_ne.mp (ne_newline_of_not_isBlank blank)
      rw [solidLine, ends, ends_set_of_test (by simp [test, blank]), flatMap_singleton, later]
      simp [siteBehind, test_lineClass, blank, further]

/-- A pattern goes up to the line break where a test holds. -/
theorem read_upToBreak {expression : Regex} (compiled : Compiled pattern expression)
    (steady : expression.isSteady) {input : Text} {test : Bool}
    (behind : expression.behind? input =
      if test then some (input.dropWhile (· != '\n')) else none) :
    (regex pattern).read rule input =
      if test then some (.text (input.takeWhile (· != '\n')), input.dropWhile (· != '\n'))
      else none := by
  have split : input.takeWhile (· != '\n') ++ input.dropWhile (· != '\n') = input :=
    takeWhile_append_dropWhile
  rw [read_regex compiled steady, behind]
  cases test with
  | false => rfl
  | true => simp only [if_true, Option.map_some, take_sub_length split.symm]

/-- The text of a line is read up to the line break, if something other than white space begins
it. Shorter indentation is no use: a tab or a space would begin it. -/
theorem read_contents (input : Text) :
    (regex "[\\t ]*\\S.*").read rule input =
      if startsText input then
        some (.text (input.takeWhile (· != '\n')), input.dropWhile (· != '\n'))
      else none := by
  obtain ⟨others, ends, stops⟩ := Regex.ends_star_set indentClass ⟨none, input⟩
  have shorter : others.flatMap solidLine.ends = [] := by
    rw [flatMap_eq_nil_iff]
    intro stop member
    obtain ⟨c, rest, text, indent⟩ := stops stop member
    rw [test_indentClass] at indent
    refine ends_solidLine_of_bars ?_ stop.before
    intro d found
    rw [text] at found
    cases found
    simp [test, isBlank_of_isIndent indent]
  have whole : input.takeWhile isIndent ++ input.dropWhile isIndent = input :=
    takeWhile_append_dropWhile
  have behind : input.dropWhile (· != '\n') =
      (input.dropWhile isIndent).dropWhile (· != '\n') := by
    conv_lhs => rw [← whole]
    refine dropWhile_append_of_pos fun d member => ?_
    exact ne_newline_of_isIndent (all_eq_true.mp all_takeWhile d member)
  have starts : startsText input = (input.dropWhile isIndent).head?.any (!isBlank ·) := by
    rw [startsText]
    cases input.dropWhile isIndent <;> rfl
  refine read_upToBreak rule compiled_contents rfl ?_
  rw [Regex.behind?, Regex.ends, ends, flatMap_cons]
  change ((solidLine.ends _ ++ others.flatMap solidLine.ends).head?).map Site.rest = _
  rw [shorter, append_nil, Regex.siteBehind, test_indentClass, head?_ends_solidLine, behind, starts]

end Expr

end Reflow
