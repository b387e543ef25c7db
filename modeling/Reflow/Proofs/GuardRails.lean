import Reflow.Document.Format
import Reflow.Proofs.LineReading
import Reflow.Proofs.ProseReading
import Reflow.Proofs.RepeatedCalls

/-!
# What formatting can answer

The rules of every kind of text refer to each other a few levels deep and no deeper, whatever the
text is, and all of their patterns compile. So the parser never runs into one of its guards except
for the size of the input, and a text that is not too large is formatted or does not follow its
grammar (`format_ok_or_unmatched`).
-/

namespace Reflow

open Text List

/-! ## Parses that are not cut short -/

namespace Parser

variable {parser : Parser} {state : ParserState}

theorem exists_unmatched (state : ParserState) (stop : Nat) :
    ∃ position expected, unmatched state stop = .unmatched position expected := by
  unfold unmatched
  split
  · exact ⟨_, _, rfl⟩
  · exact ⟨_, _, rfl⟩

theorem parse_of_large (large : parser.limits.refusesSize (byteLength parser.input)) :
    (parser.parse state).1 =
      .error (.inputTooLarge (byteLength parser.input) parser.limits.inputSize) := by
  rw [parse_eq, parseFront_eq, if_pos large]

/-- Where the root is not aborted, an input that is not too large parses or does not match. -/
theorem parse_of_small (small : parser.limits.refusesSize (byteLength parser.input) = false)
    (finished : ∀ error, (parser.visit parser.fuel (parser.rootFrame state.frame)
      parser.grammar.root ⟨0, parser.input⟩ state).1 ≠ .aborted error) :
    (∃ node, (parser.parse state).1 = .ok node) ∨
      ∃ position expected, (parser.parse state).1 = .error (.unmatched position expected) := by
  rw [parse_eq, parseFront_eq, if_neg (by rw [small]; exact Bool.false_ne_true)]
  generalize parser.visit _ _ _ _ _ = answer at finished ⊢
  obtain ⟨outcome, after⟩ := answer
  cases outcome with
  | matched node stop =>
    dsimp only [concluded]
    split
    · exact .inl ⟨node, rfl⟩
    · obtain ⟨position, expected, same⟩ := exists_unmatched after stop.offset
      exact .inr ⟨position, expected, congrArg _ same⟩
  | failed =>
    obtain ⟨position, expected, same⟩ := exists_unmatched after 0
    exact .inr ⟨position, expected, congrArg _ same⟩
  | aborted error => exact absurd rfl (finished error)

end Parser

namespace Grammar

variable {rules : Rules} {grammar : Grammar}

section Built

variable (built : build rules = .ok grammar)
  (compiles : PatternsCompile rules)
  {root : String} (first : rules.head?.map (·.1) = some root) {levels : Nat}
  (closed : (Expr.reference root).closedWithin rules (levels + 1)) (few : levels ≤ 1000)

include built compiles first closed few

/-- Rules that refer to each other only a few levels deep are never cut short. -/
theorem visit_root_ne_aborted (input : Text) (error : ParseError) :
    (Parser.visit { grammar, input } (Parser.fuel { grammar, input })
      (Parser.rootFrame { grammar, input }) grammar.root ⟨0, input⟩ {}).1 ≠ .aborted error := by
  obtain ⟨enough, reads⟩ := follows_root built compiles first closed few input
  have fresh : Parser.Sound { grammar, input } {} := Parser.Reachable.sound ⟨{}, .refl⟩
  obtain ⟨shown, _⟩ := fresh.shows_plain enough (Parser.rootFrame { grammar, input }) {}
    grammar.root (.start input) (by rw [reads]; exact Outcome.isSettled_ofReading _ _)
  intro aborted
  rw [aborted, reads] at shown
  cases reading : readRule rules (levels + 1) root input with
  | none =>
    rw [reading] at shown
    cases shown
  | some found =>
    rw [reading] at shown
    cases shown

theorem parse_ok_or_unmatched {input : Text} (small : byteLength input ≤ inputLimit) :
    (∃ tree, grammar.parse input = .ok tree) ∨
      ∃ position expected, grammar.parse input = .error (.unmatched position expected) := by
  have accepted : Limits.refusesSize {} (byteLength input) = false := by
    simpa [Limits.refusesSize] using small
  have finished := visit_root_ne_aborted built compiles first closed few input
  have casesOf := @Parser.parse_of_small { grammar, input } {} accepted finished
  unfold parse
  generalize Parser.parse _ _ = answer at casesOf ⊢
  obtain ⟨result, after⟩ := answer
  rcases casesOf with ⟨node, rfl⟩ | ⟨position, expected, rfl⟩
  · exact .inl ⟨_, rfl⟩
  · exact .inr ⟨position, expected, rfl⟩

end Built

theorem parse_of_large {input : Text} (large : inputLimit < byteLength input) :
    grammar.parse input = .error (.inputTooLarge (byteLength input) inputLimit) := by
  have refused : Limits.refusesSize {} (byteLength input) := by
    simpa [Limits.refusesSize] using large
  have failed : (Parser.parse { grammar, input } {}).1 = _ := Parser.parse_of_large refused
  unfold parse
  generalize Parser.parse _ _ = answer at failed ⊢
  obtain ⟨result, after⟩ := answer
  cases failed
  rfl

end Grammar

/-! ## The grammars of all kinds of text -/

namespace TextKind

open Document

def rules : TextKind → Rules
  | blockComment => Block.rules
  | lineComment => LineComment.rules
  | prose => Prose.rules

def root : TextKind → String
  | blockComment => "block_comment"
  | lineComment => "line_comment"
  | prose => "paragraphs"

def levels : TextKind → Nat
  | blockComment => 5
  | lineComment => 3
  | prose => 3

variable (kind : TextKind)

theorem grammar_eq : kind.grammar = Grammar.build kind.rules := by
  cases kind <;> rfl

theorem exists_grammar : ∃ found, kind.grammar = .ok found := by
  cases kind with
  | blockComment => exact Block.build_rules
  | lineComment => exact LineComment.build_rules
  | prose => exact Prose.build_rules

theorem compiles : PatternsCompile kind.rules := by
  cases kind with
  | blockComment => exact Block.compiles
  | lineComment => exact LineComment.compiles
  | prose => exact Prose.compiles

theorem root_eq : kind.rules.head?.map (·.1) = some kind.root := by
  cases kind <;> rfl

/-- Whatever the text is, rules are nested only so deep. -/
theorem closed : (Expr.reference kind.root).closedWithin kind.rules (kind.levels + 1) := by
  cases kind <;> decide

theorem few_levels : kind.levels ≤ 1000 := by
  cases kind <;> decide

end TextKind

/-! ## Formatting -/

/-- What can come of a text: a value or a mismatch if the text is not too large, and otherwise an
error that says so. -/
structure Guarded {α : Type} (text : Text) (result : Except FormatError α) : Prop where
  small : byteLength text ≤ inputLimit → (∃ value, result = .ok value) ∨
    ∃ position expected, result = .error (.unmatched position expected)
  large : inputLimit < byteLength text →
    result = .error (.engine (.inputTooLarge (byteLength text) inputLimit))

theorem Guarded.map {α β : Type} {text : Text} {result : Except FormatError α}
    (guarded : Guarded text result) (write : α → β) :
    Guarded text (do let value ← result; return write value) where
  small := by
    intro small
    rcases guarded.small small with ⟨value, rfl⟩ | ⟨position, expected, rfl⟩
    · exact .inl ⟨write value, rfl⟩
    · exact .inr ⟨position, expected, rfl⟩
  large := by
    intro large
    rw [guarded.large large]
    rfl

/-- Reading a text with the grammar of its kind. -/
theorem TextKind.guarded_readWith {α : Type} (kind : TextKind) (read : Tree → α)
    (text : Text) : Guarded text (Document.readWith kind.grammar read text) := by
  obtain ⟨found, same⟩ := kind.exists_grammar
  have built : Grammar.build kind.rules = .ok found := by rw [← kind.grammar_eq, same]
  rw [same]
  constructor
  · intro small
    rcases Grammar.parse_ok_or_unmatched built kind.compiles kind.root_eq kind.closed
      kind.few_levels small with ⟨tree, parsed⟩ | ⟨position, expected, failed⟩
    · exact .inl ⟨read tree, by simp only [Document.readWith, parsed]⟩
    · refine .inr ⟨.ofOffset text position, expected, ?_⟩
      simp only [Document.readWith, failed, FormatError.ofParse]
  · intro large
    simp only [Document.readWith, Grammar.parse_of_large large, FormatError.ofParse]

theorem guarded_formatLines (style : Style) (text : Text) (kind : TextKind) :
    Guarded text (formatLines style text kind) := by
  cases kind with
  | blockComment => exact (TextKind.blockComment.guarded_readWith _ text).map _
  | lineComment => exact (TextKind.lineComment.guarded_readWith _ text).map _
  | prose => exact (TextKind.prose.guarded_readWith _ text).map _

/-- A text with a line break at its end. -/
def closeLine (text : Text) : Text := if endsLine text then text else text ++ ['\n']

theorem guarded_format (style : Style) (kind : TextKind) (text : Text) :
    Guarded (closeLine text) (format style kind text) := by
  unfold closeLine format
  split
  · exact guarded_formatLines style text kind
  · exact (guarded_formatLines style _ kind).map _

/-- Whatever its kind and the style, a text that is not too large with its last line break is
formatted or does not follow its grammar, and no other guard of the parser is ever met: a text that
is too large is told so. -/
theorem format_ok_or_unmatched (style : Style) (kind : TextKind) (text : Text) :
    (byteLength (closeLine text) ≤ inputLimit →
      (∃ formatted, format style kind text = .ok formatted) ∨
        ∃ position expected, format style kind text = .error (.unmatched position expected)) ∧
    (inputLimit < byteLength (closeLine text) →
      format style kind text =
        .error (.engine (.inputTooLarge (byteLength (closeLine text)) inputLimit))) := by
  have guarded := guarded_format style kind text
  exact ⟨guarded.small, guarded.large⟩

/-- A text without a line break that begins many bullet items. -/
def manyBullets (count : Nat) : Text := (List.replicate count ['-', ' ']).flatten

theorem byteLength_manyBullets (count : Nat) : byteLength (manyBullets count) = 2 * count := by
  unfold manyBullets
  induction count with
  | zero => rfl
  | succ count ih =>
    rw [replicate_succ, flatten_cons, byteLength_append, ih]
    show 2 + 2 * count = 2 * (count + 1)
    omega

theorem byteLength_closeLine_manyBullets (count : Nat) :
    byteLength (closeLine (manyBullets count)) = 2 * count + 1 := by
  have clean : '\n' ∉ manyBullets count := by
    intro member
    obtain ⟨unit, listed, inside⟩ := mem_flatten.mp member
    rw [eq_of_mem_replicate listed] at inside
    revert inside
    decide
  have ends : endsLine (manyBullets count) = false := by
    rw [endsLine, beq_eq_false_iff_ne]
    exact fun last => clean (mem_of_getLast? last)
  rw [closeLine, ends, if_neg Bool.false_ne_true, byteLength_append, byteLength_manyBullets]
  rfl

theorem format_manyBullets :
    ((∃ formatted, format {} .prose (manyBullets 52428799) = .ok formatted) ∨
      ∃ position expected,
        format {} .prose (manyBullets 52428799) = .error (.unmatched position expected)) ∧
    format {} .prose (manyBullets 52428800) =
      .error (.engine (.inputTooLarge 104857601 inputLimit)) := by
  have size := byteLength_closeLine_manyBullets
  refine ⟨(format_ok_or_unmatched {} .prose (manyBullets 52428799)).1 ?_, ?_⟩
  · rw [size]
    decide
  · have large := (format_ok_or_unmatched {} .prose (manyBullets 52428800)).2
    rw [size] at large
    exact large (by decide)

end Reflow
