import Reflow.Proofs.Lists
import Reflow.Proofs.MarkPatterns

/-!
# What opens a construct

The patterns that look through a line: the label of a link, a line break at its end, and all that
opens a construct in a block comment. Each of them is told by a test on the line alone.
-/

namespace Reflow

open Text Document List Regex

variable {greedy : Bool} {c : Char} {front mark rest : Text} {site stop : Site}

namespace Regex

/-! ## Runs that may stop anywhere -/

variable {chars : CharClass}

theorem mem_ends_set (reached : stop ∈ (set chars).ends site) :
    ∃ c, site.rest = c :: stop.rest ∧ chars.test c := by
  obtain ⟨before, text⟩ := site
  cases text with
  | nil => cases reached
  | cons c rest =>
    rw [ends] at reached
    split at reached
    · next member =>
      obtain rfl := mem_singleton.mp reached
      exact ⟨c, rfl, member⟩
    · cases reached

/-- A loop over a class ends behind characters of the class. -/
theorem exists_of_mem_loopEnds {rounds : Nat}
    (reached : stop ∈ loopEnds (set chars).ends greedy rounds site) :
    ∃ front, site.rest = front ++ stop.rest ∧ ∀ c ∈ front, chars.test c := by
  induction rounds generalizing site with
  | zero =>
    obtain rfl := mem_singleton.mp reached
    exact ⟨[], rfl, by simp⟩
  | succ rounds ih =>
    rcases mem_loopEnds_succ.mp reached with rfl | ⟨next, first, later⟩
    · exact ⟨[], rfl, by simp⟩
    · obtain ⟨c, text, member⟩ := mem_ends_set first
      obtain ⟨front, more, inside⟩ := ih later
      exact ⟨c :: front, by rw [text, more, cons_append], forall_mem_cons.mpr ⟨member, inside⟩⟩

/-- A loop over a class can end behind any characters of the class. -/
theorem exists_mem_loopEnds (inside : ∀ c ∈ front, chars.test c) {rounds : Nat}
    (enough : front.length ≤ rounds) (before : Option Char) :
    ∃ stop ∈ loopEnds (set chars).ends greedy rounds ⟨before, front ++ rest⟩, stop.rest = rest := by
  induction front generalizing before rounds with
  | nil =>
    refine ⟨⟨before, rest⟩, ?_, rfl⟩
    cases rounds with
    | zero => exact mem_singleton.mpr rfl
    | succ rounds => exact mem_loopEnds_succ.mpr (.inl rfl)
  | cons c front ih =>
    cases rounds with
    | zero => cases enough
    | succ rounds =>
      have later : ∀ d ∈ front, chars.test d := fun d member =>
        inside d (mem_cons_of_mem _ member)
      obtain ⟨stop, reached, same⟩ := ih later (Nat.le_of_succ_le_succ enough) (some c)
      refine ⟨stop, mem_loopEnds_succ.mpr (.inr ⟨⟨some c, front ++ rest⟩, ?_, reached⟩), same⟩
      rw [cons_append, ends_set_of_test (inside c mem_cons_self)]
      exact mem_singleton.mpr rfl

theorem exists_of_mem_plus (reached : stop ∈ (plus greedy (set chars)).ends site) :
    ∃ front, front ≠ [] ∧ site.rest = front ++ stop.rest ∧ ∀ c ∈ front, chars.test c := by
  rw [ends] at reached
  obtain ⟨next, first, later⟩ := mem_flatMap.mp reached
  obtain ⟨c, text, member⟩ := mem_ends_set first
  obtain ⟨front, more, inside⟩ := exists_of_mem_loopEnds later
  exact ⟨c :: front, cons_ne_nil _ _, by rw [text, more, cons_append],
    forall_mem_cons.mpr ⟨member, inside⟩⟩

theorem exists_mem_plus (inside : ∀ d ∈ c :: front, chars.test d) (before : Option Char) :
    ∃ stop ∈ (plus greedy (set chars)).ends ⟨before, c :: (front ++ rest)⟩, stop.rest = rest := by
  have later : ∀ d ∈ front, chars.test d := fun d member =>
    inside d (mem_cons_of_mem _ member)
  have enough : front.length ≤ (front ++ rest).length := by
    rw [length_append]
    exact Nat.le_add_right _ _
  rw [ends, ends_set_of_test (inside c mem_cons_self), flatMap_singleton]
  exact exists_mem_loopEnds later enough (some c)

/-- The first of all ends, if the first ends of every part agree. -/
theorem head?_flatMap_rest {stops : List Site} {next : Site → List Site}
    (agree : ∀ stop ∈ stops, ∀ found ∈ (next stop).head?, found.rest = rest)
    (exist : ∃ stop ∈ stops, next stop ≠ []) :
    ((stops.flatMap next).head?).map Site.rest = some rest := by
  induction stops with
  | nil =>
    obtain ⟨_, impossible, _⟩ := exist
    cases impossible
  | cons stop stops ih =>
    rw [flatMap_cons]
    cases first : next stop with
    | nil =>
      rw [nil_append]
      refine ih (forall_mem_cons.mp agree).2 ?_
      obtain ⟨other, member, someEnd⟩ := exist
      rcases mem_cons.mp member with rfl | member
      · exact absurd first someEnd
      · exact ⟨other, member, someEnd⟩
    | cons found others =>
      have same := agree stop mem_cons_self found (by rw [first]; rfl)
      rw [cons_append, List.head?_cons, Option.map_some, same]

end Regex

variable {text : Text}

namespace Text

def occursIn (mark : Text) : Text → Bool
  | [] => mark.isEmpty
  | c :: rest => mark.isPrefixOf (c :: rest) || occursIn mark rest

theorem occursIn_iff : occursIn mark text ↔ ∃ front back, text = front ++ (mark ++ back) := by
  induction text with
  | nil =>
    rw [occursIn, List.isEmpty_iff]
    constructor
    · rintro rfl
      exact ⟨[], [], rfl⟩
    · rintro ⟨front, back, same⟩
      have nothing := (append_eq_nil_iff.mp same.symm).2
      exact (append_eq_nil_iff.mp nothing).1
  | cons c rest ih =>
    rw [occursIn, Bool.or_eq_true, ih, isPrefixOf_iff_prefix]
    constructor
    · rintro (⟨back, here⟩ | ⟨front, back, rfl⟩)
      · exact ⟨[], back, here.symm⟩
      · exact ⟨c :: front, back, rfl⟩
    · rintro ⟨front, back, same⟩
      cases front with
      | nil => exact .inl ⟨back, same.symm⟩
      | cons d front =>
        obtain ⟨_, later⟩ := List.cons.inj same
        exact .inr ⟨front, back, later⟩

end Text

namespace Expr

variable (rule : String → Reader)

/-! ### Patterns -/

theorem compiled_lineBreak :
    Compiled ".*<br>" (.seq (.star true (.set lineClass)) (.ofChars "<br>".toList)) :=
  anchored?_of_term (by decide +kernel)

def linkRegex : Regex :=
  .seq (.set (.range '[' '[')) (.seq (.plus true (.set lineClass)) (.seq (.set (.range ']' ']'))
    (.seq (.set (.range ':' ':')) (.seq (.set (.range ' ' ' ')) (.star true (.set lineClass))))))

theorem compiled_link : Compiled "\\[.+\\]: .*" linkRegex :=
  anchored?_of_term (by decide +kernel)

def oneOf : List Regex → Regex
  | [] => .empty
  | [only] => only
  | first :: rest => .alt first (oneOf rest)

def returnsRegex : Regex :=
  .seq (.set (.range '@' '@')) (.seq (.set (.range 'r' 'r')) (.seq (.set (.range 'e' 'e'))
    (.seq (.set (.range 't' 't')) (.seq (.set (.range 'u' 'u')) (.seq (.set (.range 'r' 'r'))
      (.seq (.set (.range 'n' 'n')) (.alt (.seq (.set (.range 's' 's')) .empty) .empty)))))))

def markerChoices : List Regex :=
  [.ofChars "@brief".toList, .ofChars "@tparam".toList, .ofChars "@param".toList, returnsRegex,
    .ofChars "@code".toList, .ofChars "@endcode".toList, .ofChars "@note".toList,
    .ofChars "@warning".toList, .ofChars "@throws".toList, .ofChars "@see".toList,
    .ofChars "@relatedalso".toList, .ofChars "@related".toList]

def openingRegex : Regex :=
  .alt
    (.seq (oneOf markerChoices) (.anchor .wordBoundary))
    (.alt (.set (.range '|' '|'))
      (.alt
        (.seq (.set (.range '[' '[')) (.seq (.plus true (.set lineClass)) (.ofChars "]:".toList)))
        (.seq (.set bulletClass) (.set (.range ' ' ' ')))))

theorem compiled_tagStart :
    Compiled Pattern.tagStart (.seq (.star true (.set indentClass)) openingRegex) :=
  anchored?_of_term (by decide +kernel)

/-! ### Links -/

/-- Whether a mark comes on a line behind at least one character. -/
def isLabel (mark : Text) : Text → Bool
  | _ :: text => occursIn mark text
  | [] => false

def isLink : Text → Bool
  | '[' :: text => isLabel "]: ".toList text
  | _ => false

/-- The characters of a line are characters of the class of line characters. -/
theorem test_of_unbroken (unbroken : '\n' ∉ front) : ∀ c ∈ front, lineClass.test c := by
  intro c member
  rw [test_lineClass, bne_iff_ne]
  rintro rfl
  exact unbroken member

theorem unbroken_of_test (inside : ∀ c ∈ front, lineClass.test c) : '\n' ∉ front := by
  intro member
  have impossible := inside _ member
  rw [test_lineClass] at impossible
  cases impossible

variable {after line : Text}

/-- Where a run over a line may stop in front of a mark: behind at least one character, with the
mark later on the line. -/
theorem stops_of_plus (clean : '\n' ∉ mark) (ends : AtEnd after) {before : Option Char}
    (reached : stop ∈ (plus greedy (.set lineClass)).ends ⟨before, text ++ after⟩)
    (marked : stripFront? mark stop.rest = some rest) :
    ∃ c front back, text = c :: (front ++ (mark ++ back)) ∧ rest = back ++ after := by
  obtain ⟨front, someChar, whole, inside⟩ := exists_of_mem_plus reached
  obtain ⟨back, rfl, more⟩ := append_eq_line ends (unbroken_of_test inside) whole
  rw [stripFront?_eq_some, more] at marked
  obtain ⟨back, rfl, rfl⟩ := append_eq_line ends clean marked
  obtain ⟨c, front, rfl⟩ := exists_cons_of_ne_nil someChar
  exact ⟨c, front, back, by simp, rfl⟩

theorem exists_stop_of_plus {back : Text} (unbroken : '\n' ∉ c :: front) (after : Text)
    (greedy : Bool) (before : Option Char) :
    ∃ stop ∈ (plus greedy (.set lineClass)).ends
        ⟨before, c :: (front ++ (mark ++ back)) ++ after⟩,
      stripFront? mark stop.rest = some (back ++ after) := by
  have inside := test_of_unbroken unbroken
  have reach : ∀ rest, ∃ stop ∈ (plus greedy (.set lineClass)).ends
      ⟨before, c :: (front ++ rest)⟩, stop.rest = rest := fun rest =>
    exists_mem_plus inside before
  obtain ⟨stop, reached, same⟩ := reach (mark ++ (back ++ after))
  refine ⟨stop, by simpa using reached, ?_⟩
  rw [same, stripFront?_eq_some]

theorem isLabel_iff (clean : '\n' ∉ mark) (unbroken : '\n' ∉ text) (ends : AtEnd after)
    (greedy : Bool) (before : Option Char) :
    isLabel mark text ↔
      ∃ stop ∈ (plus greedy (.set lineClass)).ends ⟨before, text ++ after⟩,
        (stripFront? mark stop.rest).isSome := by
  constructor
  · intro label
    cases text with
    | nil => cases label
    | cons c text =>
      obtain ⟨front, back, rfl⟩ := occursIn_iff.mp label
      have cleanFront : '\n' ∉ c :: front := by
        intro member
        apply unbroken
        rw [← cons_append]
        exact mem_append_left _ member
      obtain ⟨stop, reached, marked⟩ := exists_stop_of_plus cleanFront after greedy before
      exact ⟨stop, reached, by rw [marked]; rfl⟩
  · rintro ⟨stop, reached, marked⟩
    obtain ⟨rest, marked⟩ := Option.isSome_iff_exists.mp marked
    obtain ⟨c, front, back, rfl, _⟩ := stops_of_plus clean ends reached marked
    exact occursIn_iff.mpr ⟨front, back, rfl⟩

/-- Behind its label, the target of a link is all that is left of its line. -/
theorem behind?_link (unbroken : '\n' ∉ text) (ends : AtEnd after) :
    linkRegex.behind? ('[' :: text ++ after) =
      if isLabel "]: ".toList text then some after else none := by
  have clean : '\n' ∉ "]: ".toList := by decide
  have target : (Regex.seq (.set (.range ']' ']')) (.seq (.set (.range ':' ':'))
      (.seq (.set (.range ' ' ' ')) (.star true (.set lineClass))))).ends =
      (Regex.seq (.ofChars "]: ".toList) (.star true (.set lineClass))).ends := by
    have chars : "]: ".toList = [']', ':', ' '] := rfl
    funext site
    simp only [chars, Regex.ofChars, Regex.ends, flatMap_assoc]
  have opened : stripFront? ['['] ('[' :: text ++ after) = some (text ++ after) := by
    simp [stripFront?]
  have found := isLabel_iff clean unbroken ends true (some '[')
  rw [Regex.behind?, linkRegex, ends_char_seq, opened]
  dsimp only
  rw [Regex.ends, target]
  cases label : isLabel "]: ".toList text with
  | true =>
    obtain ⟨stop, reached, marked⟩ := found.mp label
    obtain ⟨rest, marked⟩ := Option.isSome_iff_exists.mp marked
    refine Regex.head?_flatMap_rest ?_ ⟨stop, reached, ?_⟩
    · intro other reached first leads
      rw [ends_chars_seq] at leads
      cases marked : stripFront? "]: ".toList other.rest with
      | none => rw [marked] at leads; cases leads
      | some rest =>
        obtain ⟨c, front, back, rfl, rfl⟩ := stops_of_plus clean ends reached marked
        obtain ⟨others, line, _⟩ := Regex.ends_star_set lineClass
          ⟨("]: ".toList.getLast?).or other.before, back ++ after⟩
        rw [marked] at leads
        dsimp only at leads
        rw [line] at leads
        cases leads
        have cleanBack : '\n' ∉ back := fun member => unbroken (by simp [member])
        rw [Regex.siteBehind, test_lineClass]
        exact dropWhile_rest cleanBack ends
    · rw [ends_chars_seq, marked]
      obtain ⟨others, line, _⟩ := Regex.ends_star_set lineClass
        ⟨("]: ".toList.getLast?).or stop.before, rest⟩
      dsimp only
      rw [line]
      exact cons_ne_nil _ _
  | false =>
    have nothing : ((Regex.plus true (.set lineClass)).ends ⟨some '[', text ++ after⟩).flatMap
        (Regex.seq (.ofChars "]: ".toList) (.star true (.set lineClass))).ends = [] := by
      rw [flatMap_eq_nil_iff]
      intro stop reached
      rw [ends_chars_seq]
      cases marked : stripFront? "]: ".toList stop.rest with
      | none => rfl
      | some rest =>
        have impossible := found.mpr ⟨stop, reached, by rw [marked]; rfl⟩
        rw [label] at impossible
        cases impossible
    rw [nothing]
    rfl

theorem read_link (unbroken : '\n' ∉ line) (ends : AtEnd after) :
    (regex "\\[.+\\]: .*").read rule (line ++ after) =
      if isLink line then some (.text line, after) else none := by
  have missing : stripFront? ['['] (line ++ after) = none → isLink line = false →
      (regex "\\[.+\\]: .*").read rule (line ++ after) =
        if isLink line then some (.text line, after) else none := by
    intro other noLink
    rw [noLink]
    refine read_regex_none rule compiled_link rfl ?_
    rw [behind?, linkRegex, ends_char_seq, other]
    rfl
  cases line with
  | nil =>
    refine missing ?_ rfl
    rcases ends.eq_nil_or_cons with rfl | ⟨rest, rfl⟩ <;> rfl
  | cons d text =>
    by_cases bracket : d = '['
    · subst bracket
      have cleanText : '\n' ∉ text := fun member => unbroken (mem_cons_of_mem _ member)
      have behind := behind?_link cleanText ends
      change _ = if isLabel "]: ".toList text then _ else _
      cases label : isLabel "]: ".toList text with
      | true =>
        rw [label] at behind
        exact read_regex_some rule compiled_link rfl behind rfl
      | false =>
        rw [label] at behind
        exact read_regex_none rule compiled_link rfl behind
    · refine missing (by simp [stripFront?, Ne.symm bracket]) ?_
      unfold isLink
      split
      · next same =>
        cases same
        exact absurd rfl bracket
      · rfl

/-! ### Line breaks inside a text -/

/-- The mark of a line break inside a text. -/
def breakMark : Text := "<br>".toList

/-- What is left of a line behind the last line break mark. -/
def lastBreak? : Text → Option Text
  | [] => none
  | c :: text => (lastBreak? text).or (stripFront? breakMark (c :: text))

theorem exists_of_lastBreak? {left : Text} (found : lastBreak? line = some left) :
    ∃ front, line = front ++ breakMark ++ left := by
  induction line with
  | nil => cases found
  | cons c line ih =>
    rw [lastBreak?] at found
    cases later : lastBreak? line with
    | none =>
      rw [later, Option.none_or] at found
      exact ⟨[], stripFront?_eq_some.mp found⟩
    | some rest =>
      rw [later, Option.some_or] at found
      obtain ⟨front, same⟩ := ih (later.trans found)
      exact ⟨c :: front, by rw [same]; rfl⟩

theorem lastBreak?_append (front : Text) : lastBreak? (front ++ breakMark) = some [] := by
  induction front with
  | nil => rfl
  | cons c front ih => rw [cons_append, lastBreak?, ih, Option.some_or]

/-- A greedy run over a line goes to the last mark. -/
theorem head?_greedy (unbroken : '\n' ∉ line) (ends : AtEnd after) (before : Option Char) :
    ((((star true (.set lineClass)).ends ⟨before, line ++ after⟩).flatMap
        (ofChars breakMark).ends).head?).map Site.rest =
      (lastBreak? line).map (· ++ after) := by
  have here : ∀ before text, (((ofChars breakMark).ends ⟨before, text⟩).head?).map Site.rest =
      stripFront? breakMark text := by
    intro before text
    rw [ends_ofChars]
    cases stripFront? breakMark text <;> rfl
  induction line generalizing before with
  | nil =>
    have barred : (set lineClass).ends ⟨before, after⟩ = [] := by
      rcases ends.eq_nil_or_cons with rfl | ⟨rest, rfl⟩ <;> rfl
    have missing : stripFront? breakMark ([] ++ after) = (stripFront? breakMark []).map (· ++ after) :=
      stripFront?_atEnd (by decide) ends
    rw [nil_append, ends_star_unroll, barred, flatMap_nil]
    change ((List.flatMap _ [_]).head?).map _ = none
    rw [flatMap_singleton, here]
    exact missing
  | cons c line ih =>
    have inside : lineClass.test c := test_of_unbroken unbroken c mem_cons_self
    have later := ih (fun member => unbroken (mem_cons_of_mem _ member)) (some c)
    have step : (star true (.set lineClass)).ends ⟨before, c :: line ++ after⟩ =
        (star true (.set lineClass)).ends ⟨some c, line ++ after⟩ ++
          [⟨before, c :: line ++ after⟩] := by
      rw [cons_append, ends_star_unroll, ends_set_of_test inside, flatMap_singleton]
      rfl
    rw [step, flatMap_append, List.head?_append, Option.map_or, later, flatMap_singleton,
      here, stripFront?_atEnd (by decide) ends, lastBreak?, Option.map_or]

theorem read_lineBreak (unbroken : '\n' ∉ line) (ends : AtEnd after) :
    (regex ".*<br>").read rule (line ++ after) = (lastBreak? line).map fun left =>
      (.text (line.take (line.length - left.length)), left ++ after) := by
  rw [read_regex compiled_lineBreak rfl, Regex.behind?, Regex.ends]
  have greedy := head?_greedy unbroken ends none
  rw [breakMark] at greedy
  rw [greedy, Option.map_map]
  cases found : lastBreak? line with
  | none => rfl
  | some left =>
    obtain ⟨front, rfl⟩ := exists_of_lastBreak? found
    have whole : front ++ breakMark ++ left ++ after = (front ++ breakMark) ++ (left ++ after) := by
      rw [append_assoc]
    simp only [Option.map_some, Function.comp_apply, take_sub_length whole, take_sub_length rfl]

/-! ### Starts of constructs -/

def marks (marker : String) (text : Text) : Bool :=
  match stripFront? marker.toList text with
  | some rest => !isWordSide rest.head?
  | none => false

def startsLabel : Text → Bool
  | '[' :: text => isLabel "]:".toList text
  | _ => false

def startsBullet : Text → Bool
  | c :: ' ' :: _ => isBullet c
  | _ => false

theorem isSome_bullet? (line : Text) : (bullet? line).isSome = startsBullet line := by
  unfold startsBullet
  split
  · next c rest => cases bullet : isBullet c <;> simp [bullet?, bullet, stripFront?]
  · next other =>
    rw [Option.isSome_eq_false_iff, Option.isNone_iff_eq_none, Option.eq_none_iff_forall_ne_some]
    rintro ⟨mark, text⟩ found
    exact other mark text (bullet?_eq_some_iff.mp found).1

def opens (line : Text) : Bool :=
  markers.any (marks · line) || line.head? == some '|' || startsLabel line || startsBullet line

theorem isEmpty_marker {marker : String} (word : isWordSide marker.toList.getLast?)
    (before : Option Char) (text : Text) :
    ((seq (.ofChars marker.toList) (.anchor .wordBoundary)).ends ⟨before, text⟩).isEmpty =
      !marks marker text := by
  rw [ends_chars_seq, marks]
  cases stripFront? marker.toList text with
  | none => rfl
  | some rest =>
    have last : isWordSide (marker.toList.getLast?.or before) := by
      cases chars : marker.toList.getLast? with
      | none => rw [chars] at word; cases word
      | some c => rw [chars] at word; exact word
    dsimp only
    rw [ends, Anchor.holds]
    simp only [last]
    cases isWordSide rest.head? <;> rfl

theorem stripFront?_append (first second text : Text) :
    stripFront? (first ++ second) text = (stripFront? first text).bind (stripFront? second) := by
  induction first generalizing text with
  | nil => rfl
  | cons c first ih =>
    cases text with
    | nil => rfl
    | cons d text =>
      by_cases same : c = d
      · simp [stripFront?, same, ih]
      · simp [stripFront?, same]

theorem isEmpty_returns (before : Option Char) (text : Text) :
    ((seq returnsRegex (.anchor .wordBoundary)).ends ⟨before, text⟩).isEmpty =
      !(marks "@returns" text || marks "@return" text) := by
  have whole : ∀ site, (seq returnsRegex (.anchor .wordBoundary)).ends site =
      (seq (.ofChars "@return".toList) (.seq (.alt (.seq (.set (.range 's' 's')) .empty) .empty)
        (.anchor .wordBoundary))).ends site := by
    intro site
    have chars : "@return".toList = ['@', 'r', 'e', 't', 'u', 'r', 'n'] := rfl
    simp only [returnsRegex, chars, ofChars, ends, flatMap_assoc]
  have longer : stripFront? "@returns".toList text =
      (stripFront? "@return".toList text).bind (stripFront? ['s']) :=
    stripFront?_append "@return".toList ['s'] text
  rw [whole, ends_chars_seq, marks, marks, longer]
  cases stripFront? "@return".toList text with
  | none => rfl
  | some rest =>
    have n : isWordSide ("@return".toList.getLast?.or before) := rfl
    have s : isWordSide (some 's') := rfl
    dsimp only [Option.bind_some]
    rw [ends, ends_optional_set, flatMap_append, isEmpty_append, flatMap_singleton]
    cases rest with
    | nil => rfl
    | cons c rest =>
      rw [ends_char]
      by_cases same : 's' = c
      · subst same
        simp only [if_true, flatMap_singleton, ends, Anchor.holds, stripFront?, n, s,
          List.head?_cons]
        cases isWordSide rest.head? <;> rfl
      · simp only [if_neg same, flatMap_nil, ends, Anchor.holds, stripFront?, n, List.head?_cons]
        cases isWordSide (some c) <;> rfl

theorem isEmpty_oneOf (first : Regex) (others : List Regex) (second : Regex) (site : Site) :
    ((seq (oneOf (first :: others)) second).ends site).isEmpty =
      (first :: others).all fun choice => ((seq choice second).ends site).isEmpty := by
  induction others generalizing first with
  | nil => simp [oneOf]
  | cons next others ih =>
    have split : (seq (oneOf (first :: next :: others)) second).ends site =
        (seq first second).ends site ++
          (seq (oneOf (next :: others)) second).ends site := by
      simp only [oneOf, ends, flatMap_append]
    rw [split, isEmpty_append, ih]
    rfl

theorem isWordSide_atEnd (ends : AtEnd after) : isWordSide after.head? = false := by
  rcases ends.eq_nil_or_cons with rfl | ⟨rest, rfl⟩ <;> rfl

theorem marks_atEnd {marker : String} (clean : '\n' ∉ marker.toList) (line : Text)
    (ends : AtEnd after) : marks marker (line ++ after) = marks marker line := by
  rw [marks, marks, stripFront?_atEnd clean ends]
  cases stripFront? marker.toList line with
  | none => rfl
  | some rest =>
    cases rest with
    | nil =>
      simp only [Option.map_some, nil_append, isWordSide_atEnd ends, List.head?_nil]
      rfl
    | cons c rest => rfl

theorem clean_markers : ∀ marker ∈ markers, '\n' ∉ marker.toList := by decide

theorem all_isEmpty_markers {names : List String}
    (words : ∀ name ∈ names, isWordSide name.toList.getLast?) (before : Option Char) (text : Text) :
    (names.map (ofChars ·.toList)).all (fun choice =>
        ((seq choice (.anchor .wordBoundary)).ends ⟨before, text⟩).isEmpty) =
      !names.any (marks · text) := by
  induction names with
  | nil => rfl
  | cons name names ih =>
    have word := words name mem_cons_self
    have others : ∀ name ∈ names, isWordSide name.toList.getLast? := fun other member =>
      words other (mem_cons_of_mem _ member)
    rw [map_cons, all_cons, any_cons, ih others, isEmpty_marker word, Bool.not_or]

/-- One of the markers is read exactly where one of them stands as a whole word. -/
theorem isEmpty_markers (before : Option Char) (text : Text) :
    ((seq (oneOf markerChoices) (.anchor .wordBoundary)).ends ⟨before, text⟩).isEmpty =
      !markers.any (marks · text) := by
  have frontWords : ∀ name ∈ ["@brief", "@tparam", "@param"],
    isWordSide name.toList.getLast? := by decide
  have backWords : ∀ name ∈ ["@code", "@endcode", "@note", "@warning", "@throws", "@see",
    "@relatedalso", "@related"], isWordSide name.toList.getLast? := by decide
  have front := all_isEmpty_markers frontWords before text
  have back := all_isEmpty_markers backWords before text
  have choices : markerChoices = ["@brief", "@tparam", "@param"].map (ofChars ·.toList) ++
    returnsRegex :: ["@code", "@endcode", "@note", "@warning", "@throws", "@see", "@relatedalso",
      "@related"].map (ofChars ·.toList) := rfl
  have names : markers = ["@brief", "@tparam", "@param"] ++ (["@returns", "@return"] ++
    ["@code", "@endcode", "@note", "@warning", "@throws", "@see", "@relatedalso", "@related"]) := rfl
  have results : (["@returns", "@return"].any (marks · text)) =
      (marks "@returns" text || marks "@return" text) := by
    rw [any_cons, any_cons, any_nil, Bool.or_false]
  have each : ((seq (oneOf markerChoices) (.anchor .wordBoundary)).ends
      ⟨before, text⟩).isEmpty = markerChoices.all fun choice =>
        ((seq choice (.anchor .wordBoundary)).ends ⟨before, text⟩).isEmpty :=
    isEmpty_oneOf _ _ _ _
  rw [each, choices, all_append, all_cons, front, back, isEmpty_returns, names,
    any_append, any_append, results, Bool.not_or _ (_ || _), Bool.not_or (_ || _)]

theorem isEmpty_alt (first second : Regex) (site : Site) :
    ((alt first second).ends site).isEmpty =
      ((first.ends site).isEmpty && (second.ends site).isEmpty) := by
  rw [ends, isEmpty_append]

theorem isEmpty_bar (ends : AtEnd after) (before : Option Char) :
    ((set (.range '|' '|')).ends ⟨before, line ++ after⟩).isEmpty =
      !(line.head? == some '|') := by
  cases line with
  | nil =>
    rcases ends.eq_nil_or_cons with rfl | ⟨rest, rfl⟩ <;> rfl
  | cons c line =>
    rw [cons_append, ends_char, List.head?_cons, Option.some_beq_some]
    by_cases bar : '|' = c
    · subst bar
      rfl
    · rw [if_neg bar, beq_false_of_ne (Ne.symm bar)]
      rfl

theorem isEmpty_label (unbroken : '\n' ∉ line) (ends : AtEnd after) (before : Option Char) :
    ((Regex.seq (.set (.range '[' '[')) (.seq (.plus true (.set lineClass))
      (.ofChars "]:".toList))).ends ⟨before, line ++ after⟩).isEmpty = !startsLabel line := by
  have clean : '\n' ∉ "]:".toList := by decide
  have bracket : stripFront? ['['] (line ++ after) = (stripFront? ['['] line).map (· ++ after) :=
    stripFront?_atEnd (by decide) ends
  rw [ends_char_seq, bracket]
  cases opened : stripFront? ['['] line with
  | none =>
    have other : startsLabel line = false := by
      unfold startsLabel
      split
      · cases opened
      · rfl
    rw [other]
    rfl
  | some text =>
    obtain rfl := stripFront?_eq_some.mp opened
    have cleanText : '\n' ∉ text := fun member => unbroken (mem_cons_of_mem _ member)
    have found := isLabel_iff clean cleanText ends true (some '[')
    change ((Regex.seq _ _).ends ⟨some '[', text ++ after⟩).isEmpty = !isLabel "]:".toList text
    rw [Bool.eq_iff_iff, List.isEmpty_iff, Bool.not_eq_true', ← Bool.not_eq_true, found, Regex.ends,
      flatMap_eq_nil_iff, not_exists]
    refine forall_congr' fun stop => ?_
    obtain ⟨before, rest⟩ := stop
    rw [not_and, Regex.ends_ofChars]
    cases stripFront? "]:".toList rest <;> simp

theorem isEmpty_bullet (ends : AtEnd after) (before : Option Char) :
    ((seq (.set bulletClass) (.set (.range ' ' ' '))).ends
      ⟨before, line ++ after⟩).isEmpty = !startsBullet line := by
  cases line with
  | nil =>
    rcases ends.eq_nil_or_cons with rfl | ⟨rest, rfl⟩ <;> rfl
  | cons c line =>
    rw [cons_append, ends_set_seq, test_bulletClass]
    cases line with
    | nil =>
      have noSpace : (set (.range ' ' ' ')).ends ⟨some c, [] ++ after⟩ = [] := by
        rcases ends.eq_nil_or_cons with rfl | ⟨rest, rfl⟩ <;> rfl
      rw [noSpace, ite_self]
      rfl
    | cons d line =>
      rw [cons_append, ends_char]
      by_cases space : ' ' = d
      · subst space
        change _ = !isBullet c
        cases isBullet c <;> rfl
      · have other : startsBullet (c :: d :: line) = false := by
          unfold startsBullet
          split
          · next same =>
            cases same
            exact absurd rfl space
          · rfl
        rw [if_neg space, ite_self, other]
        rfl

/-- What opens a construct is read exactly in front of a line that opens one. -/
theorem isEmpty_opening (unbroken : '\n' ∉ line) (ends : AtEnd after) (before : Option Char) :
    (openingRegex.ends ⟨before, line ++ after⟩).isEmpty = !opens line := by
  have marker : (markers.any (marks · (line ++ after))) = markers.any (marks · line) := by
    rw [Bool.eq_iff_iff, any_eq_true, any_eq_true]
    refine exists_congr fun name => and_congr_right fun member => ?_
    rw [marks_atEnd (clean_markers name member) line ends]
  rw [openingRegex, isEmpty_alt, isEmpty_alt, isEmpty_alt, isEmpty_markers, marker, isEmpty_bar ends,
    isEmpty_label unbroken ends, isEmpty_bullet ends, opens, Bool.not_or, Bool.not_or,
    Bool.not_or, Bool.and_assoc, Bool.and_assoc]

/-- Indentation opens nothing. -/
theorem opens_of_indent (indent : isIndent c) (text : Text) :
    opens (c :: text) = false := by
  have noBullet : startsBullet (c :: text) = false := by
    unfold startsBullet
    split
    · next d _ same =>
      cases same
      rw [isIndent, Bool.or_eq_true, beq_iff_eq, beq_iff_eq] at indent
      rcases indent with rfl | rfl <;> rfl
    · rfl
  rw [opens, noBullet, Bool.or_false]
  rw [isIndent, Bool.or_eq_true, beq_iff_eq, beq_iff_eq] at indent
  rcases indent with rfl | rfl <;> rfl

/-- A construct is opened exactly by a line that opens one behind its indentation. -/
theorem isSome_read_tagStart (unbroken : '\n' ∉ line) (ends : AtEnd after) :
    ((regex Pattern.tagStart).read rule (line ++ after)).isSome =
      opens (line.dropWhile isIndent) := by
  have barred : ∀ before c rest, indentClass.test c →
      openingRegex.ends ⟨before, c :: rest⟩ = [] := by
    intro before c rest indent
    rw [test_indentClass] at indent
    have unbrokenFront : '\n' ∉ c :: rest.takeWhile (· != '\n') := by
      intro member
      rcases mem_cons.mp member with rfl | member
      · cases indent
      · have other := all_eq_true.mp all_takeWhile _ member
        cases other
    have stop : AtEnd (rest.dropWhile (· != '\n')) := by
      intro d first
      have last := List.head?_dropWhile_not (· != '\n') rest
      rw [first] at last
      simpa using last
    have empty := isEmpty_opening unbrokenFront stop before
    rw [opens_of_indent indent, cons_append, takeWhile_append_dropWhile] at empty
    exact List.isEmpty_iff.mp empty
  have clean : '\n' ∉ line.dropWhile isIndent := fun member =>
    unbroken (dropWhile_subset _ member)
  have empty := isEmpty_opening clean ends
  have behind : ((seq (.star true (.set indentClass)) openingRegex).behind?
      (line ++ after)).isSome = opens (line.dropWhile isIndent) := by
    rw [behind?, ends_star_then barred, siteBehind, test_indentClass,
      dropWhile_atEnd rfl line ends, Option.isSome_map, ← Bool.not_not (opens _), ← empty]
    cases openingRegex.ends _ <;> rfl
  rw [read_regex compiled_tagStart rfl, Option.isSome_map, behind]

end Expr

end Reflow
