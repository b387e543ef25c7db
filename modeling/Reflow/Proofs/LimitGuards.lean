import Reflow.Proofs.EvaluationDepth

/-!
# Limits are guards

The limit on the nesting of rules decides nothing but whether a parse is aborted: no attempt takes
that for a failure, so a limit never has a say in which option matches. A visit that no bound cut
short takes the same steps under every looser limit (`Parser.visit_of_looser`), and a parse ends in
the same state with the same answer (`Parser.parse_of_looser`).

The fuel of a parser is computed from the limit, and where there is no limit it may be less than
before. It is never less than what an evaluation that settles needs.
-/

namespace Reflow.Parser

variable {parser : Parser} {limits : Limits} {state : ParserState}

/-- A script is performed alike by visitors that agree on what settles, if its performance
settles. -/
theorem perform_of_agree {visit : Visitor} {depth fuel : Nat} {inner frame : Frame}
    (agree : ∀ {atom : Nat} {cursor : Cursor} {state : ParserState}, cursor.In parser.input →
      parser.Sound state → parser.grammar.SettlesWithin depth atom cursor →
      (parser.visit fuel inner atom cursor state).1.isSettled →
      visit inner atom cursor state = parser.visit fuel inner atom cursor state)
    {script : Script Node} (along : script.Along parser.grammar (fun part place =>
      parser.grammar.SettlesWithin depth part place ∧ place.In parser.input))
    (sound : parser.Sound state)
    (settled : (perform (parser.visit fuel) inner frame script state).1.isSettled) :
    perform visit inner frame script state =
      perform (parser.visit fuel) inner frame script state := by
  induction script generalizing state with
  | done ending => rfl
  | part atom cursor onMatch onFailure matched failed =>
    obtain ⟨⟨settles, inside⟩, onward, otherwise⟩ := along
    have same := @agree atom cursor state inside sound settles
    have faithful := faithful_visit parser (Nat.le_refl fuel) 0 inner {} atom inside sound
    have shown := faithful.shows
    have later := faithful.sound
    rw [perform] at settled
    rw [perform, perform]
    generalize parser.visit fuel inner atom cursor state = answer at *
    obtain ⟨outcome, after⟩ := answer
    generalize meaning : parser.grammar.eval atom cursor = meant at *
    cases outcome with
    | matched node stop =>
      rw [same rfl]
      cases shown rfl
      exact matched node stop (onward _ stop rfl node) later settled
    | failed =>
      rw [same rfl]
      cases shown rfl
      exact failed (otherwise rfl) later settled
    | aborted error => rw [same settled]

/-- A visit that no bound cut short is the same under a looser limit, with as much fuel as the
evaluation takes. -/
theorem visit_of_looser
    (looser : ∀ depth, limits.refusesDepth depth → parser.limits.refusesDepth depth)
    {depth fuel more : Nat} (enough : depth ≤ more) {frame : Frame} {index : Nat}
    {cursor : Cursor} (inside : cursor.In parser.input) (sound : parser.Sound state)
    (settles : parser.grammar.SettlesWithin depth index cursor)
    (settled : (parser.visit fuel frame index cursor state).1.isSettled) :
    Parser.visit { parser with limits } more frame index cursor state =
      parser.visit fuel frame index cursor state := by
  induction depth generalizing fuel more frame index cursor state with
  | zero => cases settles
  | succ depth ih =>
    obtain ⟨more, rfl⟩ : ∃ fewer, more = fewer + 1 := ⟨more - 1, by omega⟩
    cases fuel with
    | zero => cases settled
    | succ fuel =>
      cases known : state.memo[(index, cursor.offset)]? with
      | some entry => rw [visit_of_hit more frame known, visit_of_hit fuel frame known]
      | none =>
        rw [visit_of_miss fuel frame known, remember_fst] at settled
        rw [visit_of_miss more frame known, visit_of_miss fuel frame known]
        congr 1
        cases found : parser.grammar.atoms[index]? with
        | none => rw [attempt, attempt, found]
        | some atom =>
          have notedIsSound : parser.Sound (raise atom.levels (noted index cursor state)) :=
            sound.congr rfl (.refl _)
          rw [attempt_eq parser _ frame cursor _ found] at settled ⊢
          rw [attempt_eq { parser with limits } _ frame cursor _ found]
          split at settled
          · cases settled
          · next entered =>
            have allowed : ¬ (0 < atom.levels && limits.refusesDepth
                ((noted index cursor state).depth + atom.levels)) := by
              rw [Bool.and_eq_true] at entered ⊢
              exact fun refused => entered ⟨refused.1, looser _ refused.2⟩
            rw [if_neg entered, if_neg allowed]
            congr 1
            exact perform_of_agree
              (fun inside sound settles settled =>
                ih (by omega) inside sound settles settled)
              (settles.parts found inside) notedIsSound settled

/-- There is fuel for every evaluation that settles, whatever the limit. -/
theorem pairs_lt_fuel (parser : Parser) :
    parser.grammar.atoms.size * (parser.input.length + 1) + 1 ≤ parser.fuel :=
  Nat.le_mul_of_pos_left _ (Nat.succ_pos _)

theorem parseFront_of_small
    (small : parser.limits.refusesSize (Text.byteLength parser.input) = false) :
    parser.parseFront state = concluded (parser.visit parser.fuel (parser.rootFrame state.frame)
      parser.grammar.root ⟨0, parser.input⟩ state) := by
  rw [parseFront_eq, small]
  rfl

section Parses

variable {state : ParserState}
  (looser : ∀ depth, limits.refusesDepth depth → parser.limits.refusesDepth depth)
  (admits : parser.limits.refusesSize (Text.byteLength parser.input) = false)
  (admits' : limits.refusesSize (Text.byteLength parser.input) = false)
  (sound : parser.Sound state)

include looser admits admits' sound

/-- A parse of the front of an input that no bound cut short is the same under a looser limit. -/
theorem parseFront_of_looser
    (answered : ∀ error, (parser.parseFront state).1 = .error error → error.isBound = false) :
    Parser.parseFront { parser with limits } state = parser.parseFront state := by
  have inside := Cursor.In.start parser.input
  rw [parseFront_of_small admits] at answered ⊢
  rw [@parseFront_of_small { parser with limits } state admits']
  have settled : (parser.visit parser.fuel (parser.rootFrame state.frame) parser.grammar.root
      ⟨0, parser.input⟩ state).1.isSettled := by
    generalize parser.visit _ _ _ _ _ = answer at answered ⊢
    obtain ⟨outcome, after⟩ := answer
    cases outcome with
    | matched node stop => rfl
    | failed => rfl
    | aborted error => simpa [Outcome.isSettled] using answered error rfl
  obtain ⟨depth, settles⟩ := sound.exists_settled inside settled 0 {}
  have bounded := Grammar.SettlesWithin.bounded settles inside
  exact congrArg concluded (visit_of_looser looser (pairs_lt_fuel { parser with limits }) inside
    sound bounded settled)

/-- So is a parse of the whole input. -/
theorem parse_of_looser
    (answered : ∀ error, (parser.parse state).1 = .error error → error.isBound = false) :
    Parser.parse { parser with limits } state = parser.parse state := by
  have front : ∀ error, (parser.parseFront state).1 = .error error → error.isBound = false := by
    intro error failed
    refine answered error ?_
    rw [parse_eq, failed]
  rw [parse_eq, parse_eq, parseFront_of_looser looser admits admits' sound front]

end Parses

end Reflow.Parser

namespace Reflow

/-- A larger limit on the nesting of rules refuses less, and so does none at all. -/
theorem Limits.refusesDepth_of_le {limits limits' : Limits}
    (le : limits'.depth = 0 ∨ limits.depth ≠ 0 ∧ limits.depth ≤ limits'.depth) (depth : Nat)
    (refused : limits'.refusesDepth depth) : limits.refusesDepth depth := by
  simp only [refusesDepth, Bool.and_eq_true, decide_eq_true_eq] at refused ⊢
  omega

/-- Limits are guards. Take two fresh parsers of the same input that both admit it, one with a limit
on the nesting of rules and one with a larger limit or none. If the first gives an answer at all and
does not find rules nested too deep, the second gives the same answer, the same node or the same
error, and leaves everything as the first does: memo, arena and furthest failure. -/
theorem parse_of_larger_limit (grammar : Grammar) (input : Text) (arena : Arena)
    {limits limits' : Limits}
    (le : limits'.depth = 0 ∨ limits.depth ≠ 0 ∧ limits.depth ≤ limits'.depth)
    (admits : limits.refusesSize (Text.byteLength input) = false)
    (admits' : limits'.refusesSize (Text.byteLength input) = false)
    (returns : (Parser.parse ⟨grammar, limits, input⟩ { arena }).1 ≠ .error .endless)
    (shallow : ∀ depth limit,
      (Parser.parse ⟨grammar, limits, input⟩ { arena }).1 ≠ .error (.recursionLimit depth limit)) :
    Parser.parse ⟨grammar, limits', input⟩ { arena } =
      Parser.parse ⟨grammar, limits, input⟩ { arena } := by
  have sound : Parser.Sound ⟨grammar, limits, input⟩ { arena } :=
    Parser.Reachable.sound ⟨arena, .refl⟩
  refine @Parser.parse_of_looser ⟨grammar, limits, input⟩ limits' _
    (Limits.refusesDepth_of_le le) admits admits' sound fun error failed => ?_
  cases error with
  | endless => exact absurd failed returns
  | recursionLimit depth limit => exact absurd failed (shallow depth limit)
  | _ => rfl

/-- A choice whose first option enters two rules, one inside the other, under a limit. -/
def guarded (limit : Nat) : Parser where
  grammar := ⟨#[.rule 1, .rule 2, .literal "x", .literal "x", .choice [0, 3]], 4, {}⟩
  limits := ⟨0, limit⟩
  input := ['x']

/-- With a limit of two the first option matches, and the same happens without a limit. -/
theorem guarded_parse :
    (∃ node, ((guarded 2).parse {}).1 = .ok node) ∧
      (guarded 0).parse {} = (guarded 2).parse {} := by
  have sound : (guarded 2).Sound {} := Parser.Reachable.sound ⟨{}, .refl⟩
  have matched : (Plain.visit (guarded 2).grammar (guarded 2).limits 9 0 {}
      (guarded 2).grammar.root ⟨0, (guarded 2).input⟩).1 = .matched (.text ⟨0, 1⟩) ⟨1, []⟩ := rfl
  obtain ⟨node, after, front, _⟩ := sound.parseFront_of_plain rfl (by decide) matched
  have parsed : ((guarded 2).parse {}).1 = .ok node := by
    rw [Parser.parse_eq_ok.mpr ⟨⟨1, []⟩, front, rfl⟩]
  have answered : ∀ error, ((guarded 2).parse {}).1 ≠ .error error := by
    intro error failed
    cases parsed.symm.trans failed
  refine ⟨⟨node, parsed⟩, ?_⟩
  exact parse_of_larger_limit (guarded 2).grammar ['x'] {} (.inl rfl) rfl rfl
    (answered .endless) fun depth limit => answered (.recursionLimit depth limit)

end Reflow
