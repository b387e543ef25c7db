import Reflow.Proofs.MemoTransparency

/-!
# Visits of the parser

A visit either finds its answer in the memo or performs the script of its atom. It only adds to the
memo, and leaves the nesting depth of rules as it was, or raised if it went too deep
(`Parser.counts_visit`).
-/

namespace Reflow

namespace Parser

/-! ## Visits -/

/-- A state in which an atom is noted as matched without the memo. -/
def noted (atom : Nat) (cursor : Cursor) (state : ParserState) : ParserState :=
  { state with trail := (atom, cursor.offset) :: state.trail }

/-- What is in the memo was not aborted. -/
theorem recorded_ne_aborted (entry : Option (Node × Cursor)) (error : ParseError) :
    recorded entry ≠ .aborted error := by
  rcases entry with _ | ⟨node, stop⟩ <;> exact fun same => by cases same

theorem isSettled_recorded (entry : Option (Node × Cursor)) :
    (recorded entry).isSettled := by
  rcases entry with _ | ⟨node, stop⟩ <;> rfl

section Visits

variable {parser : Parser} {atom : Nat} {cursor : Cursor} {state : ParserState}

theorem visit_of_hit (fuel : Nat) (frame : Frame) {entry : Option (Node × Cursor)}
    (hit : state.memo[(atom, cursor.offset)]? = some entry) :
    parser.visit (fuel + 1) frame atom cursor state = (recorded entry, state) := by
  rw [visit, hit]
  cases entry <;> rfl

theorem visit_of_miss (fuel : Nat) (frame : Frame)
    (missing : state.memo[(atom, cursor.offset)]? = none) :
    parser.visit (fuel + 1) frame atom cursor state =
      remember atom cursor
        (parser.attempt (parser.visit fuel) frame atom cursor (noted atom cursor state)) := by
  rw [visit, missing]
  rfl

/-- A match of a sound state ends at a place that its text takes the parser to. -/
theorem Sound.takes_of_visit (sound : parser.Sound state) (inside : cursor.In parser.input)
    {fuel : Nat} {frame : Frame} {node : Node} {stop : Cursor}
    (matched : (parser.visit fuel frame atom cursor state).1 = .matched node stop) :
    ∃ text, cursor.Takes text stop := by
  have shown := (faithful_visit parser (Nat.le_refl fuel) 0 frame {} atom inside sound).shows
  rw [matched] at shown
  generalize meaning : parser.grammar.eval atom cursor = outcome at shown
  cases shown rfl with
  | @matched _ tree _ _ =>
    exact Tree.takes_of_covers tree (parser.grammar.eval_covers atom cursor tree stop meaning)

theorem Sound.visit (sound : parser.Sound state) (inside : cursor.In parser.input) (fuel : Nat)
    (frame : Frame) : parser.Sound (parser.visit fuel frame atom cursor state).2 :=
  (faithful_visit parser (Nat.le_refl fuel) 0 frame {} atom inside sound).sound

@[simp] theorem remember_fst (answer : Answer) :
    (remember atom cursor answer).1 = answer.1 := by
  obtain ⟨outcome, after⟩ := answer
  cases outcome <;> rfl

end Visits

/-! ## The memo and the nesting depth -/

/-- Every entry of the memo of one state is in that of another. -/
def Keeps (state later : ParserState) : Prop :=
  ∀ (key : Nat × Nat) (entry : Option (Node × Cursor)),
    state.memo[key]? = some entry → later.memo[key]? = some entry

theorem Keeps.refl (state : ParserState) : Keeps state state := fun _ _ found => found

theorem Keeps.trans {first second third : ParserState} (left : Keeps first second)
    (right : Keeps second third) : Keeps first third :=
  fun key entry found => right key entry (left key entry found)

/-- The levels by which an answer leaves the nesting depth raised: a rule that is entered too deep
is not left again. -/
def leftover : Outcome Node → Nat
  | .aborted (.recursionLimit _ _) => 1
  | _ => 0

/-- The memo only grows, and the nesting depth is left as it was, or raised by what is left over. -/
structure Advances (state : ParserState) (answer : Answer) : Prop where
  kept : Keeps state answer.2
  depth : answer.2.depth = state.depth + leftover answer.1

theorem Advances.trans {state after : ParserState} {outcome : Outcome Node} {answer : Answer}
    (first : Advances state (outcome, after)) (level : leftover outcome = 0)
    (later : Advances after answer) : Advances state answer where
  kept := first.kept.trans later.kept
  depth := by rw [later.depth, first.depth, level, Nat.add_zero]

def Counts (visit : Visitor) : Prop :=
  ∀ frame atom cursor state, Advances state (visit frame atom cursor state)

theorem memo_finish (frame : Frame) (ending : Ending Node) (state : ParserState) :
    (finish frame ending state).2.memo = state.memo := by
  cases ending with
  | missed cursor what =>
    simp only [finish, expect]
    split <;> rfl
  | _ => rfl

theorem depth_finish (frame : Frame) (ending : Ending Node) (state : ParserState) :
    (finish frame ending state).2.depth = state.depth + leftover (finish frame ending state).1 := by
  cases ending with
  | missed cursor what =>
    simp only [finish, expect]
    split <;> rfl
  | _ => rfl

theorem advances_perform {visit : Visitor} (counts : Counts visit) (inner frame : Frame)
    (script : Script Node) (state : ParserState) :
    Advances state (perform visit inner frame script state) := by
  induction script generalizing state with
  | done ending =>
    refine ⟨fun key entry found => ?_, depth_finish frame ending state⟩
    rw [perform, memo_finish]
    exact found
  | part atom cursor onMatch onFailure matched failed =>
    have first := counts inner atom cursor state
    rw [perform]
    generalize visit inner atom cursor state = answer at first ⊢
    obtain ⟨outcome, after⟩ := answer
    cases outcome with
    | matched node stop => exact first.trans rfl (matched node stop after)
    | failed => exact first.trans rfl (failed after)
    | aborted error => exact first

theorem Counts.attempt {visit : Visitor} (counts : Counts visit) (parser : Parser) :
    Counts (parser.attempt visit) := by
  intro frame index cursor state
  cases found : parser.grammar.atoms[index]? with
  | none =>
    rw [Parser.attempt, found]
    exact ⟨.refl state, rfl⟩
  | some atom =>
    rw [attempt_eq parser visit frame cursor state found]
    split
    · next refused =>
      cases atom with
      | rule inner => exact ⟨.refl state, rfl⟩
      | _ => simp [Atom.levels] at refused
    · have performed := advances_perform counts (frame.inside parser.grammar atom) frame
        (.ofAtom parser.grammar cursor atom) (raise atom.levels state)
      refine ⟨performed.kept, ?_⟩
      have depth := performed.depth
      simp only [lower, raise] at depth ⊢
      omega

/-- A visit only adds to the memo, and leaves the nesting depth as it was, or raised by one if it
went too deep. -/
theorem counts_visit (parser : Parser) (fuel : Nat) : Counts (parser.visit fuel) := by
  induction fuel with
  | zero => exact fun _ _ _ state => ⟨.refl state, rfl⟩
  | succ fuel ih =>
    intro frame atom cursor state
    cases memo : state.memo[(atom, cursor.offset)]? with
    | some entry =>
      rw [visit_of_hit fuel frame memo]
      exact ⟨.refl state, by cases entry <;> rfl⟩
    | none =>
      have attempted := ih.attempt parser frame atom cursor (noted atom cursor state)
      -- The new entry is for a key that the memo did not have.
      have inserted : ∀ (after : ParserState) value, Keeps state after →
          Keeps state { after with memo := after.memo.insert (atom, cursor.offset) value } := by
        intro after value kept key entry found
        have other : ((atom, cursor.offset) == key) = false := by
          refine beq_false_of_ne fun same => ?_
          rw [← same, memo] at found
          cases found
        rw [Std.HashMap.getElem?_insert, other]
        exact kept key entry found
      rw [visit_of_miss fuel frame memo]
      generalize parser.attempt _ _ _ _ _ = answer at attempted ⊢
      obtain ⟨outcome, after⟩ := answer
      cases outcome with
      | matched | failed => exact ⟨inserted after _ attempted.kept, attempted.depth⟩
      | aborted error => exact ⟨attempted.kept, attempted.depth⟩

end Parser

end Reflow
