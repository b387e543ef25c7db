import Reflow.Proofs.Visits

/-!
# Repeated calls

A visit only adds to the memo, and what it finished is found there afterwards. So a visit that no
bound cut short changes nothing when it is made again: what it finished is looked up, and what was
aborted is aborted at the same place (`Parser.replay_visit`). A parser can be called any number of
times and gives the same answer every time (`Parser.calls_repeat`). The one exception is a rule that
is entered too deep: each such call leaves the nesting depth raised by one.
-/

namespace Reflow.Parser

variable {parser : Parser} {state later : ParserState}

/-- What a visit finished is in the memo. -/
theorem memo_visit {fuel : Nat} {frame : Frame} {atom : Nat} {cursor : Cursor}
    {entry : Option (Node × Cursor)}
    (finished : (parser.visit fuel frame atom cursor state).1 = recorded entry) :
    (parser.visit fuel frame atom cursor state).2.memo[(atom, cursor.offset)]? = some entry := by
  have recordedInjective : ∀ first second, recorded first = recorded second → first = second := by
    intro first second same
    rcases first with _ | ⟨node, stop⟩ <;> rcases second with _ | ⟨node', stop'⟩ <;> cases same <;>
      rfl
  cases fuel with
  | zero => exact absurd finished.symm (recorded_ne_aborted entry _)
  | succ fuel =>
    cases memo : state.memo[(atom, cursor.offset)]? with
    | some found =>
      rw [visit_of_hit fuel frame memo] at finished ⊢
      rw [← recordedInjective _ _ finished]
      exact memo
    | none =>
      rw [visit_of_miss fuel frame memo] at finished ⊢
      generalize parser.attempt _ _ _ _ _ = answer at finished ⊢
      obtain ⟨outcome, after⟩ := answer
      cases outcome with
      | matched node stop =>
        rw [← recordedInjective (some (node, stop)) _ finished]
        exact Std.HashMap.getElem?_insert_self
      | failed =>
        rw [← recordedInjective none _ finished]
        exact Std.HashMap.getElem?_insert_self
      | aborted error => exact absurd finished.symm (recorded_ne_aborted entry error)

/-! ## Visits made again -/

/-- A visit that no bound cut short gives the same when it is made again later from the same depth,
and leaves the state as it is but for the trail. -/
def Replays (parser : Parser) (visit : Visitor) : Prop :=
  ∀ (frame : Frame) (atom : Nat) {cursor : Cursor} {state later : ParserState},
    cursor.In parser.input → parser.Sound state → parser.Sound later →
    Keeps (visit frame atom cursor state).2 later → later.depth = state.depth →
    (visit frame atom cursor state).1.isSettled →
    ∃ trail, visit frame atom cursor later =
      ((visit frame atom cursor state).1, { later with trail })

theorem replay_perform {fuel : Nat} (replays : parser.Replays (parser.visit fuel))
    {inner frame : Frame} {parts : List Nat} {faults : String → Prop} {script : Script Node}
    (all : script.All (fun part place => part ∈ parts ∧ place.In parser.input)
      (·.In parser.input) faults) (sound : parser.Sound state) (soundLater : parser.Sound later)
    (kept : Keeps (perform (parser.visit fuel) inner frame script state).2 later)
    (level : later.depth = state.depth) {error : ParseError}
    (aborted : (perform (parser.visit fuel) inner frame script state).1 = .aborted error)
    (settled : error.isBound = false) :
    ∃ trail, perform (parser.visit fuel) inner frame script later =
      (.aborted error, { later with trail }) := by
  induction script generalizing state later with
  | done ending =>
    cases ending with
    | malformed pattern =>
      cases aborted
      exact ⟨later.trail, rfl⟩
    | _ => cases aborted
  | part atom cursor onMatch onFailure matched failed =>
    obtain ⟨⟨_, inside⟩, onward, otherwise⟩ := all
    have again := @replays inner atom cursor state later inside sound soundLater
    have reached : parser.Sound (parser.visit fuel inner atom cursor state).2 :=
      sound.visit inside fuel inner
    have counted := (counts_visit parser fuel inner atom cursor state).depth
    have takes : ∀ node stop, (parser.visit fuel inner atom cursor state).1 = .matched node stop →
        ∃ text, cursor.Takes text stop := fun _ _ => sound.takes_of_visit inside
    rw [perform] at kept aborted ⊢
    generalize parser.visit fuel inner atom cursor state = answer at *
    obtain ⟨outcome, after⟩ := answer
    cases outcome with
    | matched node stop =>
      obtain ⟨text, taken⟩ := takes node stop rfl
      have rest := (advances_perform (counts_visit parser fuel) inner frame
        (onMatch node stop) after).kept
      obtain ⟨trail, same⟩ := again (rest.trans kept) level rfl
      rw [same]
      exact matched node stop (onward node stop (inside.after taken)) reached
        (soundLater.congr rfl (.refl _)) kept (level.trans (Eq.symm counted)) aborted
    | failed =>
      have rest := (advances_perform (counts_visit parser fuel) inner frame onFailure after).kept
      obtain ⟨trail, same⟩ := again (rest.trans kept) level rfl
      rw [same]
      exact failed otherwise reached (soundLater.congr rfl (.refl _)) kept
        (level.trans (Eq.symm counted)) aborted
    | aborted other =>
      cases aborted
      obtain ⟨trail, same⟩ := again kept level (by simp [Outcome.isSettled, settled])
      rw [same]
      exact ⟨trail, rfl⟩

theorem replay_attempt {fuel : Nat} (replays : parser.Replays (parser.visit fuel)) (frame : Frame)
    (index : Nat) {cursor : Cursor} (inside : cursor.In parser.input) (sound : parser.Sound state)
    (soundLater : parser.Sound later)
    (kept : Keeps (parser.attempt (parser.visit fuel) frame index cursor state).2 later)
    (level : later.depth = state.depth) {error : ParseError}
    (aborted : (parser.attempt (parser.visit fuel) frame index cursor state).1 = .aborted error)
    (settled : error.isBound = false) :
    ∃ trail, parser.attempt (parser.visit fuel) frame index cursor later =
      (.aborted error, { later with trail }) := by
  cases found : parser.grammar.atoms[index]? with
  | none =>
    rw [attempt, found] at aborted ⊢
    cases aborted
    exact ⟨later.trail, rfl⟩
  | some atom =>
    rw [attempt_eq parser _ frame cursor state found] at kept aborted
    rw [attempt_eq parser _ frame cursor later found]
    split at aborted
    · cases aborted
      cases settled
    · next entered =>
      rw [if_neg entered] at kept
      rw [if_neg (by rw [level]; exact entered)]
      have raised : parser.Sound (raise atom.levels state) := sound.congr rfl (.refl _)
      have raisedLater : parser.Sound (raise atom.levels later) := soundLater.congr rfl (.refl _)
      have deeper : (raise atom.levels later).depth = (raise atom.levels state).depth :=
        congrArg (· + atom.levels) level
      obtain ⟨trail, same⟩ := replay_perform replays
        (Script.all_ofAtom parser.grammar atom inside) raised raisedLater kept deeper aborted
        settled
      rw [same]
      refine ⟨trail, ?_⟩
      simp only [lower, raise, Nat.add_sub_cancel]

theorem replay_visit (parser : Parser) (fuel : Nat) : parser.Replays (parser.visit fuel) := by
  induction fuel with
  | zero =>
    intro frame atom cursor state later _ _ _ _ _ settled
    cases settled
  | succ fuel ih =>
    intro frame atom cursor state later inside sound soundLater kept level settled
    have finished : ∀ entry,
        (parser.visit (fuel + 1) frame atom cursor state).1 = recorded entry →
        ∃ trail, parser.visit (fuel + 1) frame atom cursor later =
          (recorded entry, { later with trail }) := by
      intro entry done
      exact ⟨later.trail, visit_of_hit fuel frame (kept _ entry (memo_visit done))⟩
    cases outcome : (parser.visit (fuel + 1) frame atom cursor state).1 with
    | matched node stop => exact finished (some (node, stop)) outcome
    | failed => exact finished none outcome
    | aborted error =>
      have unbound : error.isBound = false := by
        rw [outcome] at settled
        simpa [Outcome.isSettled] using settled
      -- An entry of the later memo would show a match or a failure of an atom that is aborted.
      have missing : later.memo[(atom, cursor.offset)]? = none := by
        have shown := (faithful_visit parser (Nat.le_refl (fuel + 1)) 0 frame {} atom inside
          sound).shows settled
        rw [outcome] at shown
        cases hit : later.memo[(atom, cursor.offset)]? with
        | none => rfl
        | some entry =>
          have other := soundLater.shows inside hit
          generalize parser.grammar.eval atom cursor = meaning at shown other
          cases shown
          rcases entry with _ | ⟨node, stop⟩ <;> cases other
      cases memo : state.memo[(atom, cursor.offset)]? with
      | some entry =>
        rw [visit_of_hit fuel frame memo] at outcome
        exact absurd outcome (recorded_ne_aborted entry error)
      | none =>
        rw [visit_of_miss fuel frame memo] at kept outcome
        rw [visit_of_miss fuel frame missing]
        rw [remember_fst] at outcome
        have unchanged : remember atom cursor (parser.attempt (parser.visit fuel) frame atom
            cursor (noted atom cursor state)) =
            parser.attempt (parser.visit fuel) frame atom cursor
              (noted atom cursor state) := by
          generalize parser.attempt _ _ _ _ _ = answer at outcome ⊢
          obtain ⟨_, after⟩ := answer
          cases outcome
          rfl
        rw [unchanged] at kept
        have notedSound : parser.Sound (noted atom cursor state) := sound.congr rfl (.refl _)
        have notedLater : parser.Sound (noted atom cursor later) :=
          soundLater.congr rfl (.refl _)
        obtain ⟨trail, same⟩ := replay_attempt ih frame atom inside notedSound notedLater kept
          level outcome unbound
        rw [same]
        exact ⟨trail, rfl⟩

/-! ## Calls -/

/-- The states that a parser can be in after calls from a state. -/
inductive Calls (parser : Parser) (first : ParserState) : ParserState → Prop where
  | refl : Calls parser first first
  | parseFront {state : ParserState} (earlier : Calls parser first state) :
      Calls parser first (parser.parseFront state).2
  | parse {state : ParserState} (earlier : Calls parser first state) :
      Calls parser first (parser.parse state).2

/-- The levels by which a call leaves the nesting depth raised. -/
def debt : Except ParseError (Node × Cursor) → Nat
  | .error (.recursionLimit _ _) => 1
  | _ => 0

theorem debt_eq_zero {result : Except ParseError (Node × Cursor)}
    (settled : ∀ error, result = .error error → error.isBound = false) : debt result = 0 := by
  unfold debt
  split
  · next limit => exact absurd (settled _ rfl) (by simp [ParseError.isBound])
  · rfl

/-- The frame of the root below what a stack shows. -/
def rootFrame (parser : Parser) (frame : Frame := {}) : Frame :=
  frame.within (parser.grammar.contextName? parser.grammar.root)

/-- What a call makes of the visit of the root. -/
def concluded : Answer → Except ParseError (Node × Cursor) × ParserState
  | (.matched node stop, state) => (.ok (node, stop), state)
  | (.failed, state) => (.error (unmatched state 0), state)
  | (.aborted error, state) => (.error error, state)

theorem concluded_snd (answer : Answer) : (concluded answer).2 = answer.2 := by
  obtain ⟨outcome, state⟩ := answer
  cases outcome <;> rfl

/-- The trail has no say in an answer. -/
theorem concluded_trail (answer : Answer) (trail : List (Nat × Nat)) :
    concluded (answer.1, { answer.2 with trail }) =
      ((concluded answer).1, { answer.2 with trail }) := by
  obtain ⟨outcome, state⟩ := answer
  cases outcome <;> rfl

section Calls

variable (parser : Parser) (state : ParserState)

theorem parseFront_eq : parser.parseFront state =
    if parser.limits.refusesSize (Text.byteLength parser.input) then
      (.error (.inputTooLarge (Text.byteLength parser.input) parser.limits.inputSize), state)
    else
      concluded (parser.visit parser.fuel (parser.rootFrame state.frame) parser.grammar.root
        ⟨0, parser.input⟩ state) := by
  simp only [parseFront, within_tryAtom, rootFrame]
  split
  · rfl
  · generalize parser.visit _ _ _ _ _ = answer
    obtain ⟨outcome, after⟩ := answer
    cases outcome <;> rfl

/-- Matching the whole input is matching its front, and a look at where that ended. -/
theorem parse_eq : parser.parse state =
    (match (parser.parseFront state).1 with
      | .ok (node, stop) =>
        if stop.offset = Text.byteLength parser.input then .ok node
        else .error (unmatched (parser.parseFront state).2 stop.offset)
      | .error error => .error error,
      (parser.parseFront state).2) := by
  unfold parse
  generalize parser.parseFront state = answer
  obtain ⟨result, after⟩ := answer
  cases result with
  | error error => rfl
  | ok found =>
    dsimp only
    split <;> rfl

/-- A call leaves the nesting depth as it was, or raised by one if rules were nested too deep. -/
theorem depth_parseFront : (parser.parseFront state).2.depth =
    state.depth + debt (parser.parseFront state).1 := by
  rw [parseFront_eq]
  split
  · rfl
  · have visited := (counts_visit parser parser.fuel (parser.rootFrame state.frame)
      parser.grammar.root ⟨0, parser.input⟩ state).depth
    generalize parser.visit _ _ _ _ _ = answer at visited ⊢
    obtain ⟨outcome, after⟩ := answer
    cases outcome with
    | matched node stop => exact visited
    | failed =>
      simp only [concluded, unmatched]
      split <;> exact visited
    | aborted error => cases error <;> exact visited

/-- A call leaves the stack as it was, whatever its answer. -/
theorem frame_parseFront : (parser.parseFront state).2.frame = state.frame := by
  rw [parseFront_eq]
  split
  · rfl
  · rw [concluded_snd]
    exact (stackless_visit parser parser.fuel).frame_eq _ _ _ state

variable {parser state}

section Sound

variable (sound : parser.Sound state)
  (settled : ∀ error, (parser.parseFront state).1 = .error error → error.isBound = false)

include sound settled

/-- A call whose answer no bound cut short can be made again. -/
theorem replay_parseFront (trail : List (Nat × Nat)) :
    ∃ longer, parser.parseFront { (parser.parseFront state).2 with trail } =
      ((parser.parseFront state).1, { (parser.parseFront state).2 with trail := longer }) := by
  have level : (parser.parseFront state).2.depth = state.depth := by
    rw [depth_parseFront, debt_eq_zero settled, Nat.add_zero]
  have shows : ({ (parser.parseFront state).2 with trail } : ParserState).frame = state.frame :=
    frame_parseFront parser state
  rw [parseFront_eq parser { (parser.parseFront state).2 with trail }, shows]
  rw [parseFront_eq parser state] at settled level ⊢
  split
  · exact ⟨trail, rfl⟩
  · next small =>
    rw [if_neg small] at settled level
    rw [concluded_snd] at level ⊢
    have inside := Cursor.In.start parser.input
    generalize parser.rootFrame state.frame = frame at settled level ⊢
    have reached : parser.Sound (parser.visit parser.fuel frame parser.grammar.root
        ⟨0, parser.input⟩ state).2 := sound.visit inside parser.fuel frame
    have done : (parser.visit parser.fuel frame parser.grammar.root ⟨0, parser.input⟩
        state).1.isSettled := by
      generalize parser.visit _ _ _ _ _ = answer at settled
      obtain ⟨outcome, after⟩ := answer
      cases outcome with
      | matched node stop => rfl
      | failed => rfl
      | aborted error => simpa [Outcome.isSettled] using settled error rfl
    have again : parser.Sound { (parser.visit parser.fuel frame parser.grammar.root
        ⟨0, parser.input⟩ state).2 with trail } := reached.congr rfl (.refl _)
    obtain ⟨longer, same⟩ := replay_visit parser parser.fuel frame parser.grammar.root inside sound
      again (Keeps.refl _) level done
    exact ⟨longer, by rw [same, concluded_trail]⟩

/-- Once an answer was not cut short, later calls change nothing but the trail. -/
theorem Calls.unchanged (calls : parser.Calls (parser.parseFront state).2 later) :
    ∃ trail, later = { (parser.parseFront state).2 with trail } := by
  induction calls with
  | refl => exact ⟨_, rfl⟩
  | parseFront earlier ih =>
    obtain ⟨trail, rfl⟩ := ih
    obtain ⟨longer, same⟩ := replay_parseFront sound settled trail
    exact ⟨longer, by rw [same]⟩
  | parse earlier ih =>
    obtain ⟨trail, rfl⟩ := ih
    obtain ⟨longer, same⟩ := replay_parseFront sound settled trail
    exact ⟨longer, by rw [parse_eq, same]⟩

end Sound

end Calls

/-- Calls on one parser are repeatable. A call leaves the nesting depth as it was, unless rules were
nested too deep: then it stays raised by one. Once a call gave an answer that no bound cut short,
every later call gives the same one, whatever calls were made in between, and the memo, the arena,
the depth and the furthest failure stay as they were. -/
theorem calls_repeat (parser : Parser) {state : ParserState} (reachable : parser.Reachable state) :
    (parser.parseFront state).2.depth = state.depth + debt (parser.parseFront state).1 ∧
      ((∀ error, (parser.parseFront state).1 = .error error → error.isBound = false) →
        ∀ later, parser.Calls (parser.parseFront state).2 later →
          (∃ trail, later = { (parser.parseFront state).2 with trail }) ∧
            later.depth = state.depth ∧
            (parser.parseFront later).1 = (parser.parseFront state).1 ∧
            (parser.parse later).1 = (parser.parse state).1) := by
  refine ⟨depth_parseFront parser state, fun settled later calls => ?_⟩
  have sound := reachable.sound
  obtain ⟨trail, rfl⟩ := calls.unchanged sound settled
  obtain ⟨longer, same⟩ := replay_parseFront sound settled trail
  refine ⟨⟨trail, rfl⟩, ?_, by rw [same], ?_⟩
  · show (parser.parseFront state).2.depth = state.depth
    rw [depth_parseFront, debt_eq_zero settled, Nat.add_zero]
  · rw [parse_eq, parse_eq, same]
    rfl

/-- A pattern that does not compile, behind a literal. -/
def unclosed : Parser where
  grammar := ⟨#[.literal "a", .regex "(", .sequence [0, 1]], 2, {}⟩
  input := ['a', 'b']

/-- An aborted parse is aborted again, though what was matched before is in the memo by then. -/
theorem calls_unclosed : let first := unclosed.parseFront {}
    first.1 = .error (.invalidGrammar (.malformedRegex "(")) ∧
      (unclosed.parseFront (unclosed.parse first.2).2).1 = first.1 := by
  intro first
  have answer : first.1 = .error (.invalidGrammar (.malformedRegex "(")) := by
    have broken : Regex.anchored? "(" = none := by decide
    have small : unclosed.limits.refusesSize (Text.byteLength unclosed.input) = false := rfl
    simp only [first, parseFront, small]
    simp [unclosed, fuel, Grammar.contextName?, within, tryAtom, matchAtom, sequence, piece,
      matchLiteral, stripFront?, remember, broken]
  refine ⟨answer, ?_⟩
  have repeats := (calls_repeat unclosed ⟨{}, .refl⟩).2 fun error same => by
    cases answer.symm.trans same
    rfl
  exact (repeats _ (.parse .refl)).2.2.1

/-- Three rules, each of which enters the next, where only one may be entered. -/
def nested : Parser where
  grammar := ⟨#[.rule 1, .rule 2, .literal "x"], 0, .ofList [("root", 0), ("a", 1), ("b", 2)]⟩
  limits := ⟨0, 1⟩
  input := ['x']

/-- The depth that stays raised shows in the third call, which reports another depth. -/
theorem nested_calls_differ : let first := nested.parseFront {}
    let second := nested.parseFront first.2
    let third := nested.parseFront second.2
    first.1 = .error (.recursionLimit 2 1) ∧ second.1 = .error (.recursionLimit 2 1) ∧
      third.1 = .error (.recursionLimit 3 1) := by
  have top : nested.grammar.contextName? 0 = some "root" := rfl
  have next : nested.grammar.contextName? 1 = some "a" := rfl
  rw [nested] at top next
  refine ⟨?_, ?_, ?_⟩ <;>
    simp [nested, parseFront, Limits.refusesSize, Limits.refusesDepth, fuel, within, tryAtom,
      matchAtom, enterRule, remember, top, next]

end Reflow.Parser
