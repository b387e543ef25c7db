import Reflow.Proofs.FailureReports
import Reflow.Proofs.GuardRails
import Reflow.Proofs.LineClasses
import Reflow.Proofs.LinewiseReading
import Reflow.Proofs.PositionOrder

/-!
# Places of mismatches

Where a text is told not to match. The parser sees the text with its last line break, so a place it
reports can lie behind a text that lacks this line break. With a steady grammar the place is the
furthest one that plain evaluation misses something at (`Parser.reported_of_parse`). Prose and line
comments are read line by line, and on a text that ends with a line break nothing is missed behind
it (`Grammar.position_lt_of_parse`). A comment is different: what reads its elements gets to the end
of a text without a closing line, and there the closing line is missed
(`Grammar.le_position_of_parse`). So a place is one of the text that was given, or the one behind
the line break that was supplied to a comment (`mismatch_place`).
-/

namespace Reflow

open Text Document List TextKind Expr Pattern
open Plain (attempt visit)

variable {frame : Frame} {input : Text} {more : List Expr} {misses : List Miss}
  {position : Nat} {expected pattern : String}

/-! ## Reports -/

theorem reach_lt {bound : Nat} (positive : 0 < bound)
    (short : ∀ miss ∈ misses, miss.position < bound) : reach misses < bound := by
  induction misses with
  | nil => exact positive
  | cons miss misses ih =>
    have here := short miss mem_cons_self
    have later := ih (forall_mem_cons.mp short).2
    simp only [reach, map_cons, foldr_cons] at later ⊢
    exact Nat.max_lt.2 ⟨here, later⟩

/-- What is reported lies before a bound if all that was missed does, and the place where the match
stopped. -/
theorem position_lt_of_diagnosis {stop bound : Nat}
    (report : .unmatched position expected = diagnosis misses stop) (stopped : stop < bound)
    (short : ∀ miss ∈ misses, miss.position < bound) : position < bound := by
  unfold diagnosis at report
  split at report
  · cases report
    exact stopped
  · cases report
    exact reach_lt (by omega) short

/-- What is reported does not lie before anything that was missed. -/
theorem le_position_of_diagnosis {stop : Nat}
    (report : .unmatched position expected = diagnosis misses stop) {miss : Miss}
    (member : miss ∈ misses) : miss.position ≤ position := by
  have below := position_le_reach member
  unfold diagnosis at report
  split at report
  · next early =>
    cases report
    have someMiss : misses.isEmpty = false :=
      isEmpty_eq_false_iff.2 (ne_nil_of_mem member)
    rw [someMiss, Bool.false_or, decide_eq_true_iff] at early
    omega
  · cases report
    exact below

/-- With a steady grammar, an input that does not match is reported by what plain evaluation
misses. -/
theorem Grammar.report_of_parse {grammar : Grammar} (steady : grammar.Steady)
    (refused : grammar.parse input = .error (.unmatched position expected)) {fuel : Nat}
    {trace : Plain.Trace}
    (evaluated : visit grammar .unlimited fuel 0
      (Parser.rootFrame { grammar, input }) grammar.root ⟨0, input⟩ = trace)
    (settled : trace.1.isSettled) :
    .unmatched position expected = diagnosis trace.2 trace.1.reached := by
  rw [parse] at refused
  split at refused
  · cases refused
  · next error after failed =>
    cases refused
    exact (Parser.reported_of_parse failed evaluated settled).2 steady

/-- A reading that leaves something stops before the end of the input. -/
theorem Reader.Splits.reached_lt {reader : Reader} (splits : reader.Splits)
    (positive : 0 < byteLength input) (whole : ∀ part, reader input ≠ some (part, [])) :
    (Outcome.ofReading ⟨0, input⟩ (reader input)).reached < byteLength input := by
  cases read : reader input with
  | none => exact positive
  | some found =>
    obtain ⟨part, rest⟩ := found
    have someLeft : byteLength rest ≠ 0 := by
      intro nothing
      rw [byteLength_eq_zero nothing] at read
      exact whole part read
    have sizes := congrArg byteLength (splits.split read)
    rw [byteLength_append] at sizes
    simp only [Outcome.ofReading, Outcome.reached, Cursor.advance]
    omega

section Built

variable {rules : Rules} {grammar : Grammar}
  (built : Grammar.build rules = .ok grammar)
  (compiles : PatternsCompile rules)
  (byLines : ∀ levels, ∀ rule ∈ rules, rule.2.ByLines (readRule rules levels))
  (steady : grammar.Steady) {root : String} (first : rules.head?.map (·.1) = some root)
  {levels : Nat} (closed : (reference root).closedWithin rules (levels + 1))
  (few : levels ≤ 1000)

include built compiles byLines steady first closed few

/-- If the rules go line by line, an input that ends with a line break does not match somewhere
before its end. -/
theorem Grammar.position_lt_of_parse (ends : endsLine input)
    (refused : grammar.parse input = .error (.unmatched position expected)) :
    position < byteLength input := by
  have linewise : Linewise (visit grammar .unlimited ((levels + 1) * grammar.atoms.size) 0
      (Parser.rootFrame { grammar, input }) grammar.root) (readRule rules (levels + 1) root) := by
    rw [← targetOf_root built first]
    refine holds_rule built compiles Linewise.inherited_linewise byLines levels closed
      (Nat.le_refl _) ?_ _
    intro level _
    simp [Limits.unlimited, Limits.refusesDepth]
  have outcome := linewise.follows ⟨0, input⟩
  have settled := Outcome.isSettled_ofReading ⟨0, input⟩ (readRule rules (levels + 1) root input)
  rw [← outcome] at settled
  have report := report_of_parse steady refused rfl settled
  have small : byteLength input ≤ inputLimit := by
    by_contra large
    rw [parse_of_large (Nat.lt_of_not_le large)] at refused
    cases refused
  have whole : ∀ part, readRule rules (levels + 1) root input ≠ some (part, []) := by
    intro part read
    rw [(parse_build built compiles first closed few).2 ⟨small, part, read, rfl⟩] at refused
    cases refused
  have size : Cursor.inputEnd ⟨0, input⟩ = byteLength input := Nat.zero_add _
  have positive : 0 < byteLength input := size ▸ @Cursor.offset_lt_inputEnd ⟨0, input⟩ ends
  refine position_lt_of_diagnosis report ?_ fun miss member => ?_
  · rw [outcome]
    exact linewise.splits.reached_lt positive whole
  · rw [← size]
    refine (linewise.short ⟨0, input⟩ ends).resolve_left ?_ miss member
    exact fun found => whole found.choose found.choose_spec

end Built

/-! ## Missing something at the end -/

/-- At the end of the input, a visitor misses something there. -/
def MissesAtEnd (visit : Cursor → Plain.Trace) : Prop :=
  ∀ cursor, cursor.rest = [] → ∃ miss ∈ (visit cursor).2, miss.position = cursor.offset

variable {found : List Part} {kind : TextKind} {text : Text}

namespace Plain

/-- A piece that is not nothing is missed, unless a lookahead keeps that from being reported. -/
theorem missesAtEnd_piece (audible : frame.silent = false) {stop : Cursor → Option Cursor}
    {what : String} {reader : Reader}
    (follows : Follows (fun cursor => piece frame cursor (stop cursor) what) reader)
    (refuses : reader [] = none) :
    MissesAtEnd fun cursor => piece frame cursor (stop cursor) what := by
  intro cursor ended
  have outcome := follows cursor
  rw [ended, refuses] at outcome
  dsimp only at outcome ⊢
  cases found : stop cursor with
  | some stop =>
    rw [found] at outcome
    cases outcome
  | none =>
    refine ⟨⟨cursor.offset, frame.expectation what⟩, ?_, rfl⟩
    simp [piece, miss, audible]

variable {visit : Nat → Cursor → Trace}

/-- What the first atom misses is missed by the sequence. -/
theorem mem_sequence {atom : Nat} {cursor : Cursor} {missed : Miss}
    (member : missed ∈ (visit atom cursor).2) (start : Cursor) (atoms : List Nat)
    (trees : List Tree) : missed ∈ (sequence visit start (atom :: atoms) trees cursor).2 := by
  rw [sequence]
  generalize visit atom cursor = trace at member
  obtain ⟨outcome, misses⟩ := trace
  cases outcome with
  | matched tree stop => exact mem_append_left _ member
  | failed => exact member
  | aborted error => exact member

/-- Behind parts that read the whole input, what is missed is missed at the end of the input. -/
theorem exists_miss_sequence {rule : String → Reader} (splits : ∀ name, (rule name).Splits)
    {last : Expr} (parts : List Expr) {start : Nat}
    (follows : Forall₂ (fun atom => Follows (visit atom)) (tops start (parts ++ [last]))
      (readEach rule (parts ++ [last])))
    (missed : MissesAtEnd (visit (start + sizes parts + last.size - 1))) (cursor : Cursor)
    (read : Reader.readAll (readEach rule parts) cursor.rest = some (found, []))
    (origin : Cursor) (trees : List Tree) :
    ∃ miss ∈ (sequence visit origin (tops start (parts ++ [last])) trees cursor).2,
      miss.position = cursor.inputEnd := by
  induction parts generalizing start cursor found trees with
  | nil =>
    have ended : cursor.rest = [] := (Prod.mk.inj (Option.some.inj read)).2
    obtain ⟨miss, member, place⟩ := missed cursor ended
    refine ⟨miss, mem_sequence member origin _ trees, ?_⟩
    rw [place, Cursor.inputEnd, ended]
    rfl
  | cons part parts ih =>
    obtain ⟨here, later⟩ := forall₂_cons.1 follows
    have outcome := here cursor
    rw [readEach_cons, Reader.readAll] at read
    split at read
    · cases read
    · next first rest front =>
      split at read
      · cases read
      · next others left behind =>
        cases read
        have split := (splits_read splits part).split front
        rw [front] at outcome
        rw [sizes, ← Nat.add_assoc] at missed
        rw [cons_append, tops, sequence]
        generalize visit (start + part.size - 1) cursor = trace at outcome
        obtain ⟨result, misses⟩ := trace
        cases outcome
        obtain ⟨miss, member, place⟩ := ih later missed (cursor.advance first.chars rest) behind
          (first.treeAt cursor.offset :: trees)
        rw [Cursor.inputEnd_advance split] at place
        exact ⟨miss, mem_append_right _ member, place⟩

end Plain

/-- The last of some expressions has its place behind the others. -/
theorem Placed.last {table : List Atom} {target : String → Nat} {last : Expr} (parts : List Expr)
    {start : Nat} (placed : Placed table start (allAtoms target start (parts ++ [last]))) :
    Placed table (start + sizes parts) (last.atoms target (start + sizes parts)) := by
  induction parts generalizing start with
  | nil => exact placed.left
  | cons part parts ih =>
    have behind := placed.right
    rw [length_atoms] at behind
    have later := ih behind
    rwa [Nat.add_assoc] at later

theorem Frame.silent_within_eq (frame : Frame) (name : Option String) :
    (frame.within name).silent = frame.silent := by
  cases name <;> rfl

namespace Grammar

section Rules

variable {rules : Rules} {grammar : Grammar} {limits : Limits}
  (built : build rules = .ok grammar)
  (compiles : PatternsCompile rules)
  {name label : String} (defined : bodyOf? rules name = some (.sequence (.regex pattern :: more)))
  (refuses : (regex pattern).read (readRule rules 0) [] = none)

include built compiles defined refuses

/-- A captured rule misses something if it begins with a pattern that does not match nothing. -/
theorem missesAtEnd_capture {start : Nat}
    (placed : Placed grammar.atoms.toList start
      ((Expr.capture (.reference name) label).atoms (targetOf rules) start)) {depth : Nat}
    (allowed : limits.refusesDepth (depth + 1) = false) (fuel : Nat)
    (audible : frame.silent = false) :
    MissesAtEnd (visit grammar limits (fuel + 4) depth frame
      (start + (Expr.capture (.reference name) label).size - 1)) := by
  obtain ⟨place, inside, top⟩ := placed_of_build built defined
  have capture := placed.own
  have reference := placed.left.getElem?
  have sequence := inside.ownAll
  have regex := inside.left.left.getElem?
  obtain ⟨machine, compiled⟩ := Option.isSome_iff_exists.mp
    (compiles _ (mem_of_bodyOf? defined) pattern mem_cons_self)
  simp only [Expr.read, compiled] at refuses
  intro cursor ended
  -- From the pattern up: the sequence, the reference and the capture miss what it misses.
  have patternVisit (inner : Frame) (audible : inner.silent = false) :
      ∃ miss ∈ (visit grammar limits (fuel + 1) (depth + 1) inner place cursor).2,
        miss.position = cursor.offset := by
    rw [visit, attempt, regex]
    dsimp only
    rw [compiled]
    exact Plain.missesAtEnd_piece audible (Plain.piece_machine inner machine _) refuses cursor ended
  have bodyVisit (inner : Frame) (audible : inner.silent = false) :
      ∃ miss ∈ (visit grammar limits (fuel + 2) (depth + 1) inner (targetOf rules name)
        cursor).2, miss.position = cursor.offset := by
    obtain ⟨miss, member, here⟩ := patternVisit inner audible
    refine ⟨miss, ?_, here⟩
    rw [top, visit, attempt, Expr.size, sequence]
    exact Plain.mem_sequence member _ _ _
  rw [visit, attempt, Expr.size, capture]
  dsimp only
  rw [Plain.misses_mapTree, visit, attempt, Expr.size, Nat.add_sub_cancel, reference]
  dsimp only
  rw [allowed, if_neg Bool.false_ne_true]
  exact bodyVisit _ (by rw [Frame.silent_within_eq, Frame.silent_within_eq, audible])

variable {root : String} {parts : List Expr} {levels : Nat}
  (outer : bodyOf? rules root = some (.sequence (parts ++ [.capture (.reference name) label])))
  (closed : (reference root).closedWithin rules (levels + 2)) (read : Reader.readAll
    (readEach (readRule rules (levels + 1)) parts) input = some (found, []))

include outer closed read

/-- If a root ends with a captured rule that cannot be read where the text ends, and all before that
reads the whole input, something is missed at the end of the input. -/
theorem exists_miss_of_readAll (shallow : ∀ level, limits.refusesDepth level = false)
    (audible : frame.silent = false) :
    ∃ miss ∈ (visit grammar limits ((levels + 2) * grammar.atoms.size + 5) 0 frame
      (targetOf rules root) ⟨0, input⟩).2, miss.position = byteLength input := by
  obtain ⟨body, same, inner⟩ := Expr.closedWithin_reference closed
  cases outer.symm.trans same
  obtain ⟨start, placed, top⟩ := placed_of_build built outer
  have own := placed.ownAll
  have size := placed.length_le
  rw [Expr.length_atoms, Array.length_toList, Expr.size] at size
  have resolves : Resolves grammar limits (targetOf rules) Follows (readRule rules (levels + 1))
      ((levels + 1) * grammar.atoms.size) 0
      (Expr.sequence (parts ++ [.capture (.reference name) label])).references := by
    intro other member
    refine ⟨shallow _, fun fuel frame enough => ?_⟩
    exact follows_rule built compiles levels (Expr.closedWithin_of_mem inner member) enough
      (fun level _ => shallow level) frame
  have levelwise : (levels + 2) * grammar.atoms.size =
    (levels + 1) * grammar.atoms.size + grammar.atoms.size := Nat.succ_mul _ _
  have follows := holds_readEach (inherited_follows _ _) _ placed.left
    (compiles _ (mem_of_bodyOf? outer)) resolves (Expr.allMeet_true _ _)
    (show _ ≤ (levels + 2) * grammar.atoms.size + 4 by omega) frame
  have missed := missesAtEnd_capture built compiles defined refuses (placed.left.last parts)
    (shallow 1) ((levels + 2) * grammar.atoms.size) audible
  obtain ⟨miss, member, here⟩ := Plain.exists_miss_sequence (splits_readRule rules (levels + 1))
    parts follows missed ⟨0, input⟩ read ⟨0, input⟩ []
  refine ⟨miss, ?_, here.trans (Nat.zero_add _)⟩
  rw [top, visit, attempt, Expr.size, own]
  exact member

/-- Such an input does not match at its end. -/
theorem le_position_of_parse (steady : grammar.Steady) (first : rules.head?.map (·.1) = some root)
    (refused : grammar.parse input = .error (.unmatched position expected)) :
    byteLength input ≤ position := by
  have shallow (level : Nat) : Limits.refusesDepth .unlimited level = false := by
    simp [Limits.unlimited, Limits.refusesDepth]
  have audible : (Parser.rootFrame { grammar, input }).silent = false :=
    Frame.silent_within_eq _ _
  have outcome : (visit grammar .unlimited ((levels + 2) * grammar.atoms.size + 5) 0
      (Parser.rootFrame { grammar, input }) (targetOf rules root) ⟨0, input⟩).1 =
        .ofReading ⟨0, input⟩ (readRule rules (levels + 2) root input) :=
    follows_rule built compiles (levels + 1) closed (Nat.le_add_right _ 5)
      (fun level _ => shallow level) _ ⟨0, input⟩
  have settled := Outcome.isSettled_ofReading ⟨0, input⟩ (readRule rules (levels + 2) root input)
  obtain ⟨miss, member, here⟩ :=
    exists_miss_of_readAll built compiles defined refuses outer closed read shallow audible
  rw [← outcome, targetOf_root built first] at settled
  rw [targetOf_root built first] at member
  rw [← here]
  exact le_position_of_diagnosis (report_of_parse steady refused rfl settled) member

end Rules

end Grammar

/-! ## Prose and line comments -/

namespace Expr

variable (rule : String → Reader)

/-- Parts that leave the line breaks, and one behind them. -/
theorem byLines_sequence (parts : List Expr) {last : Expr}
    (each : ∀ part ∈ parts, part.ByLines rule ∧ (part.read rule).SparesBreaks)
    (final : last.ByLines rule) : (sequence (parts ++ [last])).ByLines rule := by
  have all : AllMeet Reader.Chained Reader.AtMostOne rule (parts ++ [last]) ∧
      readEach rule (parts ++ [last]) = readEach rule parts ++ [last.read rule] ∧
      ∀ reader ∈ readEach rule parts, reader.SparesBreaks := by
    induction parts with
    | nil => exact ⟨⟨final, trivial⟩, rfl, by simp⟩
    | cons part parts ih =>
      obtain ⟨here, later⟩ := forall_mem_cons.1 each
      obtain ⟨inner, same, spared⟩ := ih later
      refine ⟨⟨here.1, inner⟩, congrArg _ same, ?_⟩
      exact forall_mem_cons.2 ⟨here.2, spared⟩
  obtain ⟨inner, same, spared⟩ := all
  refine ⟨inner, ?_⟩
  rw [same]
  exact Reader.chained_line spared _

theorem sparesBreaks_capture {inner : Expr} (spares : (inner.read rule).SparesBreaks)
    (label : String) : ((capture inner label).read rule).SparesBreaks :=
  spares.map fun part => by rw [Part.chars]

theorem sparesBreaks_indentation : ((regex indentation).read rule).SparesBreaks :=
  (stays_indentation rule).sparesBreaks

end Expr

namespace Document.Prose

open Reflow.Expr

section Parts

variable (rule : String → Reader)

theorem byLines_listStart {contents : String}
    (spares : ((regex contents).read rule).SparesBreaks) : (listStart contents).ByLines rule := by
  refine byLines_sequence rule [capture (regex indentation) "indentation",
    capture (regex bullet) "start", capture (regex contents) "contents"] ?_ trivial
  have bullet := (stays_bullet rule).sparesBreaks
  simp only [forall_mem_cons, not_mem_nil, false_implies, implies_true, and_true]
  exact ⟨⟨trivial, sparesBreaks_capture rule (sparesBreaks_indentation rule) _⟩,
    ⟨trivial, sparesBreaks_capture rule bullet _⟩, trivial, sparesBreaks_capture rule spares _⟩

theorem byLines_item {contents : String} (spares : ((regex contents).read rule).SparesBreaks)
    (splits : (rule "text_line").Splits) :
    (sequence [listStart contents, many (reference "text_line")]).ByLines rule :=
  ⟨⟨byLines_listStart rule spares, ⟨trivial, Nat.zero_le _, rfl⟩, trivial⟩,
    Reader.chained_many _ splits⟩

theorem byLines_textLine : (capture (sequence [capture (regex indentation) "prefix",
    notAhead (regex bullet), capture (regex "\\S.*") "contents", literal "\n"])
      "line").ByLines rule := by
  refine byLines_sequence rule [capture (regex indentation) "prefix",
    notAhead (regex bullet), capture (regex "\\S.*") "contents"] ?_ trivial
  have contents := (stays_solidLine rule).sparesBreaks
  simp only [forall_mem_cons, not_mem_nil, false_implies, implies_true, and_true]
  exact ⟨⟨trivial, sparesBreaks_capture rule (sparesBreaks_indentation rule) _⟩,
    ⟨trivial, (stays_notBullet rule).sparesBreaks⟩, trivial,
    sparesBreaks_capture rule contents _⟩

end Parts

theorem byLines (levels : Nat) : ∀ rule ∈ rules, rule.2.ByLines (readRule rules levels) := by
  have splits := splits_readRule rules levels "text_line"
  intro rule member
  simp only [rules, mem_cons, not_mem_nil, or_false] at member
  rcases member with rfl | rfl | rfl | rfl | rfl | rfl | rfl
  · exact ⟨⟨trivial, trivial, trivial, trivial⟩, Nat.zero_le _, rfl⟩
  · exact ⟨trivial, Nat.le_refl _, rfl⟩
  · exact byLines_textLine _
  · exact ⟨trivial, Nat.le_refl _, rfl⟩
  · exact ⟨⟨trivial, trivial, trivial⟩, Nat.le_refl _, rfl⟩
  · exact byLines_item _ (stays_lineBreak _).sparesBreaks splits
  · exact byLines_item _ (stays_restOfLine _).sparesBreaks splits

end Document.Prose

namespace Document.LineComment

open Reflow.Expr

theorem sparesBreaks_mark (rule : String → Reader) :
    ((regex "//+!?|#+").read rule).SparesBreaks := by
  intro input part rest read
  rw [read_mark] at read
  obtain ⟨⟨mark, left⟩, found, same⟩ := Option.map_eq_some_iff.1 read
  cases same
  rw [Part.chars]
  cases marks_of_mark? found <;> simp [mem_replicate]

theorem sparesBreaks_contents (rule : String → Reader) :
    ((regex "[\\t ]*\\S.*").read rule).SparesBreaks := by
  intro input part rest read inside
  rw [read_contents] at read
  split at read
  · cases read
    rw [Part.chars] at inside
    have other := mem_takeWhile_imp inside
    simp at other
  · cases read

theorem sparesBreaks_gap (rule : String → Reader) : (gap.read rule).SparesBreaks := by
  intro input part rest read
  rw [read_gap] at read
  split at read
  · cases read
    simp
  · split at read
    · cases read
      simp
    · split at read
      · cases read
        simp
      · cases read

theorem sparesBreaks_prefix (levels : Nat) :
    (readRule rules levels "prefix").SparesBreaks := by
  cases levels with
  | zero =>
    intro input part rest read
    cases read
  | succ levels =>
    have defined : bodyOf? rules "prefix" = some (sequence
      [regex indentation, capture (regex "//+!?|#+") "punctuation", gap]) := rfl
    rw [readRule_of_defined defined]
    refine Reader.SparesBreaks.sequence ?_
    simp only [readEach_cons, readEach_nil, forall_mem_cons, not_mem_nil,
      false_implies, implies_true, and_true]
    exact ⟨sparesBreaks_indentation _, sparesBreaks_capture _ (sparesBreaks_mark _) _,
      sparesBreaks_gap _⟩

theorem byLines (levels : Nat) : ∀ rule ∈ rules, rule.2.ByLines (readRule rules levels) := by
  have lead := sparesBreaks_prefix levels
  intro rule member
  simp only [rules, mem_cons, not_mem_nil, or_false] at member
  rcases member with rfl | rfl | rfl | rfl | rfl
  · exact ⟨⟨trivial, trivial, trivial⟩, Nat.zero_le _, rfl⟩
  · refine byLines_sequence _ [regex indentation, capture (regex "//+!?|#+") "punctuation"]
      ?_ ⟨trivial, trivial, ⟨trivial, trivial, trivial⟩, trivial⟩
    simp only [forall_mem_cons, not_mem_nil, false_implies, implies_true, and_true]
    exact ⟨⟨trivial, sparesBreaks_indentation _⟩, trivial,
      sparesBreaks_capture _ (sparesBreaks_mark _) _⟩
  · refine ⟨byLines_sequence _ [reference "prefix", regex indentation] ?_ trivial,
      Nat.le_refl _, rfl⟩
    simp only [forall_mem_cons, not_mem_nil, false_implies, implies_true, and_true]
    exact ⟨⟨trivial, lead⟩, trivial, sparesBreaks_indentation _⟩
  · refine byLines_sequence _ [capture (reference "prefix") "prefix",
      capture (regex "[\\t ]*\\S.*") "contents"] ?_ trivial
    simp only [forall_mem_cons, not_mem_nil, false_implies, implies_true, and_true]
    exact ⟨⟨trivial, @sparesBreaks_capture _ (reference "prefix") lead _⟩, trivial,
      sparesBreaks_capture _ (sparesBreaks_contents _) _⟩
  · exact ⟨trivial, Nat.le_refl _, rfl⟩

end Document.LineComment

/-! ## Comments that are not closed -/

namespace Document.Block

open Reflow.Expr

/-- A text falls into an opening line and tokens that are all taken, without a closing line. -/
structure IsUnclosed (text opening : Text) (lexemes : List Lexeme) : Prop where
  opens : isOpening opening
  known : ∀ lexeme ∈ lexemes, IsToken lexeme.source lexeme.token
  taken : (takeAll element lexemes).2 = []
  cleanOpening : '\n' ∉ opening
  cleanBody : Unbroken (lexemes.flatMap Lexeme.source)
  whole : text = opening ++ '\n' :: unlines (lexemes.flatMap Lexeme.source)

namespace IsUnclosed

variable {text opening : Text} {lexemes : List Lexeme}

/-- The opening line and the elements are read to the end of the text. -/
theorem reads (unclosed : IsUnclosed text opening lexemes) (levels : Nat) :
    ∃ first body more, readRule rules (levels + 5) "start" text = some (first, more) ∧
      (bodyElement.read (readRule rules (levels + 5))).repetition 0 none more =
        some (body, []) := by
  have scans : lexer.Scans lexemes [] := by
    refine ⟨fun lexeme member => knows_iff.mpr (unclosed.known lexeme member), rfl, ?_⟩
    rw [Lexer.linesOf, append_nil]
    exact unclosed.cleanBody
  have all : takeMany element lexemes =
    some ((takeAll element lexemes).1, (takeAll element lexemes).2) := rfl
  obtain ⟨body, _, _, bodyRead, _⟩ :=
    (reads_body levels not_mem_nil rfl).of_some scans all
  have bodyText : lexer.text lexemes [] [] = unlines (lexemes.flatMap Lexeme.source) := by
    rw [Lexer.text, Lexer.linesOf, append_nil, append_nil]
    rfl
  have startLine := (takes_start (levels + 4)).line opening
    (unlines (lexemes.flatMap Lexeme.source)) unclosed.cleanOpening
  rw [unclosed.opens, if_pos rfl, ← unclosed.whole] at startLine
  obtain ⟨⟨first, more⟩, firstRead, same⟩ := Option.map_eq_some_iff.mp startLine
  obtain ⟨-, rfl⟩ := Prod.mk.inj same
  rw [unclosed.taken, bodyText] at bodyRead
  exact ⟨first, body, _, firstRead, bodyRead⟩

/-- Nothing is left for the closing line. -/
theorem not_read (unclosed : IsUnclosed text opening lexemes) (levels : Nat) (part : Part)
    (rest : Text) : readRule rules (levels + 6) "block_comment" text ≠ some (part, rest) := by
  intro read
  obtain ⟨first, body, more, firstRead, bodyRead⟩ := unclosed.reads levels
  obtain ⟨first', body', last, more', left, firstAgain, bodyAgain, lastRead, _⟩ :=
    read_root_cases read
  cases firstRead.symm.trans firstAgain
  cases bodyRead.symm.trans bodyAgain
  have nothing := read_end_tail (levels + 4) not_mem_nil
  rw [lastRead] at nothing
  cases nothing

/-- Such a text does not match at its end. -/
theorem le_position (unclosed : IsUnclosed text opening lexemes) {found : Grammar}
    (built : blockComment.grammar = .ok found)
    (refused : found.parse text = .error (.unmatched position expected)) :
    byteLength text ≤ position := by
  have steady := steady built
  have outer : bodyOf? rules "block_comment" =
    some (sequence ([captured "start", many bodyElement] ++ [captured "end"])) := rfl
  have defined : bodyOf? rules "end" =
    some (sequence (regex "[\\t ]*\\*\\*?/" :: [regex indentation, lineEnd])) := rfl
  have refuses : (regex "[\\t ]*\\*\\*?/").read (readRule rules 0) [] = none := read_closeMark _ _
  obtain ⟨first, body, more, firstRead, bodyRead⟩ := unclosed.reads 0
  have read : Reader.readAll
      (readEach (readRule rules 5) [captured "start", many bodyElement]) text =
        some ([.field "start" first, body], []) := by
    simp only [captured, many, readEach_cons, readEach_nil, read_capture, read_reference,
      read_repetition, Reader.readAll, Reader.map, firstRead, Option.map_some, bodyRead]
  rw [grammar_eq] at built
  exact Grammar.le_position_of_parse built blockComment.compiles defined refuses outer
    blockComment.closed read steady blockComment.root_eq refused

end IsUnclosed

end Document.Block

/-! ## Formatting -/

namespace TextKind

/-- Line comments and prose go line by line. -/
theorem byLines (other : kind ≠ .blockComment) (levels : Nat) :
    ∀ rule ∈ kind.rules, rule.2.ByLines (readRule kind.rules levels) := by
  cases kind with
  | blockComment => exact absurd rfl other
  | lineComment => exact LineComment.byLines levels
  | prose => exact Prose.byLines levels

/-- A text does not match its grammar at the place of the offset that the parser reports. -/
theorem readWith_eq_unmatched_iff {α : Type} (kind : TextKind) {read : Tree → α}
    {position : Position} :
    readWith kind.grammar read text = .error (.unmatched position expected) ↔
      ∃ found offset, kind.grammar = .ok found ∧
        found.parse text = .error (.unmatched offset expected) ∧
        position = .ofOffset text offset := by
  obtain ⟨found, same⟩ := kind.exists_grammar
  have built : Grammar.build kind.rules = .ok found := by rw [← kind.grammar_eq, same]
  rw [same]
  constructor
  · intro refused
    by_cases small : byteLength text ≤ inputLimit
    · rcases Grammar.parse_ok_or_unmatched built kind.compiles kind.root_eq kind.closed
        kind.few_levels small with ⟨tree, parsed⟩ | ⟨offset, what, failed⟩
      · simp only [readWith, parsed] at refused
        cases refused
      · simp only [readWith, failed, FormatError.ofParse] at refused
        cases refused
        exact ⟨found, offset, rfl, failed, rfl⟩
    · simp only [readWith, Grammar.parse_of_large (Nat.lt_of_not_le small), FormatError.ofParse]
        at refused
      cases refused
  · rintro ⟨_, offset, ⟨⟩, failed, rfl⟩
    simp only [readWith, failed, FormatError.ofParse]

end TextKind

theorem map_eq_error_iff {α β : Type} {result : Except FormatError α} {write : α → β}
    {error : FormatError} :
    (do let value ← result; return write value) = .error error ↔ result = .error error := by
  cases result <;> simp [bind, Except.bind, pure, Except.pure]

/-- A text does not match at the place that the parser reports of it, with its last line break. -/
theorem format_eq_unmatched_iff {style : Style} {position : Position} :
    format style kind text = .error (.unmatched position expected) ↔
      ∃ found offset, kind.grammar = .ok found ∧
        found.parse (closeLine text) = .error (.unmatched offset expected) ∧
        position = .ofOffset (closeLine text) offset := by
  have lines (input : Text) : formatLines style input kind =
      .error (.unmatched position expected) ↔ ∃ found offset, kind.grammar = .ok found ∧
        found.parse input = .error (.unmatched offset expected) ∧
        position = .ofOffset input offset := by
    cases kind with
    | blockComment =>
      exact map_eq_error_iff.trans blockComment.readWith_eq_unmatched_iff
    | lineComment => exact map_eq_error_iff.trans lineComment.readWith_eq_unmatched_iff
    | prose => exact map_eq_error_iff.trans prose.readWith_eq_unmatched_iff
  unfold format closeLine
  split
  · exact lines text
  · exact map_eq_error_iff.trans (lines _)

namespace Text.Position

/-- The place of an offset is the place of its own offset. -/
theorem offset_ofOffset (text : Text) (offset : Nat) :
    (ofOffset text offset).offset ≤ byteLength text ∧
      ofOffset text offset = ofOffset text (ofOffset text offset).offset := by
  have nearest := isNearest_takeBytes text offset
  obtain ⟨same, here⟩ := ofOffset_eq_of_isNearest nearest
  rw [here]
  exact ⟨Nat.le_trans nearest.below (Nat.min_le_right _ _), same⟩

/-- Up to the end of a text, a character behind it does not matter for a place. -/
theorem ofOffset_concat_of_le {offset : Nat} (inside : offset ≤ byteLength text) (c : Char) :
    ofOffset (text ++ [c]) offset = ofOffset text offset := by
  rcases Nat.lt_or_eq_of_le inside with before | rfl
  · rw [ofOffset_eq_behind, takeBytes_append_of_lt before, ofOffset_eq_behind]
  · have whole := ofOffset_append text []
    rw [append_nil] at whole
    rw [ofOffset_append, whole]

/-- An offset that does not lie before the end has the place behind the text. -/
theorem ofOffset_of_le {offset : Nat} (beyond : byteLength text ≤ offset) :
    ofOffset text offset = behind text := by
  have taken := takeBytes_append_of_le beyond []
  rw [append_nil] at taken
  rw [ofOffset_eq_behind, taken, takeBytes, append_nil]

/-- The place behind a line break is the first one of a line. -/
theorem behind_break (text : Text) :
    behind (text ++ ['\n']) = ⟨byteLength text + 1, text.count '\n' + 2, 1⟩ := by
  rw [behind_concat, if_pos rfl]
  rfl

end Text.Position

/-- A text does not match at a place of the text itself, unless it is a comment that misses
something behind the line break that was supplied. -/
theorem place_of_unmatched {style : Style} {position : Position}
    (refused : format style kind text = .error (.unmatched position expected)) :
    position.offset ≤ byteLength text ∧ position = .ofOffset text position.offset ∨
      kind = .blockComment ∧ endsLine text = false ∧
        position = ⟨byteLength text + 1, text.count '\n' + 2, 1⟩ := by
  obtain ⟨found, offset, same, failed, rfl⟩ := format_eq_unmatched_iff.1 refused
  cases ends : endsLine text with
  | true =>
    rw [closeLine, ends, if_pos rfl]
    exact .inl (Position.offset_ofOffset text offset)
  | false =>
    rw [closeLine, ends, if_neg Bool.false_ne_true] at failed ⊢
    rcases Nat.lt_or_ge (byteLength text) offset with behind | inside
    · have size : byteLength (text ++ ['\n']) = byteLength text + 1 := byteLength_append _ _
      have beyond : byteLength (text ++ ['\n']) ≤ offset := by omega
      rw [Position.ofOffset_of_le beyond, Position.behind_break]
      refine .inr ⟨?_, rfl, rfl⟩
      -- Any other text is read line by line, and stops before the supplied line break.
      by_contra other
      have built : Grammar.build kind.rules = .ok found := by rw [← kind.grammar_eq, same]
      have before := Grammar.position_lt_of_parse built kind.compiles (kind.byLines other)
        (steady same) kind.root_eq kind.closed kind.few_levels (endsLine_concat text)
        failed
      exact absurd before (Nat.not_lt_of_le beyond)
    · rw [Position.ofOffset_concat_of_le inside]
      exact .inl (Position.offset_ofOffset text offset)

/-- A comment without a closing line is told to miss it where the text ends, behind the last line
break. -/
theorem format_of_isUnclosed {opening : Text} {lexemes : List Block.Lexeme}
    (unclosed : Block.IsUnclosed (closeLine text) opening lexemes)
    (small : byteLength (closeLine text) ≤ inputLimit) (style : Style) :
    ∃ expected, format style .blockComment text =
      .error (.unmatched (.behind (closeLine text)) expected) := by
  obtain ⟨found, same⟩ := blockComment.exists_grammar
  have built : Grammar.build blockComment.rules = .ok found := by
    rw [← grammar_eq, same]
  rcases Grammar.parse_ok_or_unmatched built blockComment.compiles
    blockComment.root_eq blockComment.closed blockComment.few_levels
    small with ⟨tree, parsed⟩ | ⟨offset, expected, failed⟩
  · obtain ⟨-, part, read, -⟩ := (Grammar.parse_build built blockComment.compiles
      blockComment.root_eq blockComment.closed
      blockComment.few_levels).1 parsed
    exact absurd read (unclosed.not_read 0 part [])
  · refine ⟨expected, format_eq_unmatched_iff.2 ⟨found, offset, same, failed, ?_⟩⟩
    rw [Position.ofOffset_of_le (unclosed.le_position same failed)]

/-- A text that does not match its grammar is told so at a place of its own, unless it is a comment
whose last line break is missing. Then the place can be the one behind the line break that was
supplied, which the text does not have; and it is for every comment without a closing line. -/
theorem mismatch_place (style : Style) (text : Text) :
    (∀ kind position expected,
      format style kind text = .error (.unmatched position expected) →
        position.offset ≤ byteLength text ∧ position = .ofOffset text position.offset ∨
          kind = .blockComment ∧ endsLine text = false ∧
            position = ⟨byteLength text + 1, text.count '\n' + 2, 1⟩) ∧
      ∀ opening lexemes, Block.IsUnclosed (closeLine text) opening lexemes →
        byteLength (closeLine text) ≤ inputLimit →
          ∃ expected, format style .blockComment text =
            .error (.unmatched (.behind (closeLine text)) expected) := by
  refine ⟨fun kind position expected refused => place_of_unmatched refused, ?_⟩
  exact fun opening lexemes unclosed small => format_of_isUnclosed unclosed small style

/-- A comment with one line of text and neither a closing line nor a last line break. -/
def unclosedComment : Text := "/**\n * x".toList

theorem isUnclosed_unclosedComment :
    Block.IsUnclosed (closeLine unclosedComment) "/**".toList
      [⟨[" * x".toList], .text { lead := " * ".toList, contents := ['x'] }⟩] where
  opens := by decide
  known := by
    intro lexeme member
    rw [mem_singleton.1 member]
    exact .line (by decide)
  taken := by decide
  cleanOpening := by decide
  cleanBody := by
    intro line member
    rw [mem_singleton.1 member]
    decide
  whole := by decide

theorem unclosedComment_place :
    ∃ expected, format {} .blockComment unclosedComment = .error (.unmatched ⟨9, 3, 1⟩ expected) ∧
      byteLength unclosedComment = 8 ∧ endsLine unclosedComment = false ∧
      (⟨9, 3, 1⟩ : Position) =
        ⟨byteLength unclosedComment + 1, unclosedComment.count '\n' + 2, 1⟩ := by
  obtain ⟨expected, refused⟩ :=
    (mismatch_place {} unclosedComment).2 _ _ isUnclosed_unclosedComment (by decide)
  have behind : Position.behind (closeLine unclosedComment) = ⟨9, 3, 1⟩ := by decide
  rw [behind] at refused
  rcases (mismatch_place {} unclosedComment).1 _ _ _ refused with ⟨inside, -⟩ | ⟨-, ends, same⟩
  · exact absurd inside (by decide)
  · exact ⟨expected, refused, by decide, ends, same⟩

/-- The place of a mismatch need not be one of the text that was given. -/
theorem unclosedComment_beyond_text :
    ¬∀ style kind text position expected,
      format style kind text = .error (.unmatched position expected) →
        position.offset ≤ byteLength text ∧ position = .ofOffset text position.offset := by
  intro withinText
  obtain ⟨expected, refused⟩ := format_of_isUnclosed isUnclosed_unclosedComment (by decide) {}
  exact absurd (withinText _ _ _ _ _ refused).1 (by decide)

end Reflow
