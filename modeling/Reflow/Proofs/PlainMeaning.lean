import Reflow.Proofs.Scripts

/-!
# The meaning of a grammar

Plain evaluation is bounded twice: in the depth of its recursion and in the nesting of rules. An
outcome that no bound cut short is settled, and a settled outcome stays the same when the bounds are
loosened (`Plain.visit_approx`). So there is one outcome for every atom and place, `Grammar.eval`,
which every bounded evaluation gives if it settles, and which satisfies the equations of plain
evaluation without bounds (`Grammar.attempt_approx_eval`).
-/

namespace Reflow

open Plain

/-- Whether an error comes from a bound on the evaluation and not from the grammar. -/
def ParseError.isBound : ParseError → Bool
  | recursionLimit _ _ | endless => true
  | _ => false

namespace Outcome

/-- Whether no bound cut an outcome short. -/
def isSettled {α : Type} : Outcome α → Bool
  | aborted error => !error.isBound
  | _ => true

/-- If the first outcome is settled, the second one is the same. -/
def Approx {α : Type} (first second : Outcome α) : Prop :=
  first.isSettled → second = first

theorem Approx.refl {α : Type} (outcome : Outcome α) : outcome.Approx outcome := fun _ => rfl

/-- Goes on from a match or from a failure; an abort stays one. -/
def resume {α β : Type} (outcome : Outcome α) (onMatch : α → Cursor → Outcome β)
    (onFailure : Outcome β) : Outcome β :=
  match outcome with
  | matched value stop => onMatch value stop
  | failed => onFailure
  | aborted error => aborted error

theorem isSettled_of_resume {α β : Type} {onMatch : α → Cursor → Outcome β}
    {onFailure : Outcome β} {outcome : Outcome α}
    (settled : (outcome.resume onMatch onFailure).isSettled) : outcome.isSettled := by
  cases outcome with
  | matched value stop => rfl
  | failed => rfl
  | aborted error => exact settled

theorem Approx.resume {α β : Type} {first second : Outcome α} (approx : first.Approx second)
    {onMatch onMatch' : α → Cursor → Outcome β} {onFailure onFailure' : Outcome β}
    (matched : ∀ value stop, (onMatch value stop).Approx (onMatch' value stop))
    (failed : onFailure.Approx onFailure') :
    (first.resume onMatch onFailure).Approx (second.resume onMatch' onFailure') := by
  intro settled
  rw [approx (isSettled_of_resume settled)]
  cases first with
  | matched value stop => exact matched value stop settled
  | failed => exact failed settled
  | aborted error => rfl

end Outcome

variable {grammar : Grammar}

namespace Plain

/-! ## Outcomes without reports -/

theorem sequence_cons_outcome (visit : Nat → Cursor → Trace) (start : Cursor) (atom : Nat)
    (rest : List Nat) (trees : List Tree) (cursor : Cursor) :
    (sequence visit start (atom :: rest) trees cursor).1 =
      (visit atom cursor).1.resume
        (fun tree stop => (sequence visit start rest (tree :: trees) stop).1) .failed := by
  rw [sequence]
  rcases visit atom cursor with ⟨outcome, misses⟩
  cases outcome <;> rfl

theorem choice_cons_outcome (visit : Nat → Cursor → Trace) (cursor : Cursor) (atom : Nat)
    (rest : List Nat) :
    (choice visit cursor (atom :: rest)).1 =
      (visit atom cursor).1.resume .matched (choice visit cursor rest).1 := by
  rw [choice]
  rcases visit atom cursor with ⟨outcome, misses⟩
  cases outcome <;> rfl

theorem repetition_succ_outcome (visit : Cursor → Trace) (start : Cursor) (least : Nat)
    (most : Option Nat) (rounds : Nat) (trees : List Tree) (cursor : Cursor) :
    (repetition visit start least most (rounds + 1) trees cursor).1 =
      if belowMost most trees.length then
        (visit cursor).1.resume
          (fun tree stop =>
            if stop.offset = cursor.offset then
              (endRepetition start cursor least (tree :: trees)).1
            else (repetition visit start least most rounds (tree :: trees) stop).1)
          (endRepetition start cursor least trees).1
      else (endRepetition start cursor least trees).1 := by
  rw [repetition]
  split
  · rcases visit cursor with ⟨outcome, misses⟩
    cases outcome with
    | matched tree stop =>
      simp only [Outcome.resume]
      split <;> rfl
    | failed => rfl
    | aborted error => rfl
  · rfl

theorem mapTree_outcome (change : Tree → Cursor → Tree) (trace : Trace) :
    (mapTree change trace).1 =
      trace.1.resume (fun tree stop => .matched (change tree stop) stop) .failed := by
  rcases trace with ⟨outcome, misses⟩
  cases outcome <;> rfl

/-- The outcome of a check, given whether its atom matched. -/
def checkOutcome (cursor : Cursor) (passed : Bool) : Outcome Tree :=
  if passed then .matched (.nil cursor.offset) cursor else .failed

theorem lookahead_outcome (frame : Frame) (cursor : Cursor) (positive : Bool) (what : String)
    (trace : Trace) :
    (lookahead frame cursor positive what trace).1 =
      trace.1.resume (fun _ _ => checkOutcome cursor positive) (checkOutcome cursor !positive) := by
  rcases trace with ⟨outcome, misses⟩
  cases outcome <;> cases positive <;> rfl

/-! ## Loosening the bounds -/

theorem perform_part_outcome (visit : Nat → Cursor → Trace) (frame : Frame) (atom : Nat)
    (cursor : Cursor) (onMatch : Tree → Cursor → Script Tree) (onFailure : Script Tree) :
    (perform visit frame (.part atom cursor onMatch onFailure)).1 =
      (visit atom cursor).1.resume (fun tree stop => (perform visit frame (onMatch tree stop)).1)
        (perform visit frame onFailure).1 := by
  rw [perform]
  rcases visit atom cursor with ⟨outcome, misses⟩
  cases outcome <;> rfl

theorem perform_approx {visit visit' : Nat → Cursor → Trace}
    (sub : ∀ atom cursor, (visit atom cursor).1.Approx (visit' atom cursor).1)
    (frame frame' : Frame) (script : Script Tree) :
    (perform visit frame script).1.Approx (perform visit' frame' script).1 := by
  induction script with
  | done ending => cases ending <;> exact .refl _
  | part atom cursor onMatch onFailure matched failed =>
    rw [perform_part_outcome, perform_part_outcome]
    exact (sub atom cursor).resume matched failed

/-- Wherever the second limits refuse to enter a rule, the first ones do. -/
def Looser (limits limits' : Limits) (depth depth' : Nat) : Prop :=
  ∀ levels, limits'.refusesDepth (depth' + levels) →
    limits.refusesDepth (depth + levels)

theorem Looser.refl (limits : Limits) (depth : Nat) : Looser limits limits depth depth :=
  fun _ refused => refused

variable {limits limits' : Limits}

theorem Looser.enter {depth depth' : Nat} (looser : Looser limits limits' depth depth')
    (levels : Nat) : Looser limits limits' (depth + levels) (depth' + levels) := by
  intro more refused
  rw [Nat.add_assoc] at refused ⊢
  exact looser (levels + more) refused

theorem attempt_approx {visit visit' : Visitor}
    (sub : ∀ {depth depth' : Nat}, Looser limits limits' depth depth' →
      ∀ (frame frame' : Frame) (atom : Nat) (cursor : Cursor),
        (visit depth frame atom cursor).1.Approx (visit' depth' frame' atom cursor).1)
    {depth depth' : Nat} (looser : Looser limits limits' depth depth') (frame frame' : Frame)
    (atom : Nat) (cursor : Cursor) :
    (attempt grammar limits visit depth frame atom cursor).1.Approx
      (attempt grammar limits' visit' depth' frame' atom cursor).1 := by
  cases found : grammar.atoms[atom]? with
  | none =>
    rw [attempt, attempt, found]
    exact .refl _
  | some part =>
    rw [attempt_eq limits visit depth frame cursor found,
      attempt_eq limits' visit' depth' frame' cursor found]
    split
    · intro settled
      cases settled
    · next allowed =>
      rw [if_neg]
      · exact perform_approx (sub (looser.enter part.levels) _ _) frame frame' _
      · intro refused
        simp only [Bool.and_eq_true] at allowed refused
        exact allowed ⟨refused.1, looser part.levels refused.2⟩

/-- A settled outcome stays the same when the bounds are loosened. -/
theorem visit_approx {fuel more : Nat} (enough : fuel ≤ more) {depth depth' : Nat}
    (looser : Looser limits limits' depth depth') (frame frame' : Frame) (atom : Nat)
    (cursor : Cursor) :
    (visit grammar limits fuel depth frame atom cursor).1.Approx
      (visit grammar limits' more depth' frame' atom cursor).1 := by
  induction fuel generalizing more depth depth' frame frame' atom cursor with
  | zero =>
    intro settled
    cases settled
  | succ fuel ih =>
    obtain ⟨more, rfl⟩ : ∃ fewer, more = fewer + 1 := ⟨more - 1, by omega⟩
    exact attempt_approx (fun loose frame frame' atom cursor =>
      ih (by omega) loose frame frame' atom cursor) looser frame frame' atom cursor

end Plain

/-! ## Without bounds -/

def Limits.unlimited : Limits := ⟨0, 0⟩

theorem Plain.looser_unlimited (limits : Limits) (depth depth' : Nat) :
    Looser limits .unlimited depth depth' := by
  intro levels refused
  simp [Limits.unlimited, Limits.refusesDepth] at refused

theorem Plain.attempt_unlimited (visit : Visitor) (depth : Nat) (frame : Frame) {index : Nat}
    {atom : Atom} (cursor : Cursor) (found : grammar.atoms[index]? = some atom) :
    attempt grammar .unlimited visit depth frame index cursor =
      perform (visit (depth + atom.levels) (frame.inside grammar atom)) frame
        (.ofAtom grammar cursor atom) := by
  rw [attempt_eq .unlimited visit depth frame cursor found]
  simp [Limits.unlimited, Limits.refusesDepth]

namespace Grammar

open Classical in
/-- The outcome of an atom at a place when nothing bounds the evaluation. -/
noncomputable def eval (grammar : Grammar) (atom : Nat) (cursor : Cursor) : Outcome Tree :=
  if settles : ∃ fuel,
      (visit grammar .unlimited fuel 0 {} atom cursor).1.isSettled then
    (visit grammar .unlimited settles.choose 0 {} atom cursor).1
  else .aborted .endless

/-- A bounded evaluation that settles gives the outcome of the unbounded one. -/
theorem visit_approx_eval (grammar : Grammar) (limits : Limits) (fuel depth : Nat) (frame : Frame)
    (atom : Nat) (cursor : Cursor) :
    (visit grammar limits fuel depth frame atom cursor).1.Approx
      (grammar.eval atom cursor) := by
  intro settled
  have loosened : (visit grammar .unlimited fuel 0 {} atom cursor).1 =
      (visit grammar limits fuel depth frame atom cursor).1 :=
    visit_approx (Nat.le_refl _) (looser_unlimited limits depth 0) frame {} atom
      cursor settled
  have settles : ∃ fuel,
      (visit grammar .unlimited fuel 0 {} atom cursor).1.isSettled :=
    ⟨fuel, loosened ▸ settled⟩
  rw [eval, dif_pos settles, ← loosened]
  -- Both evaluations agree with the one that has the larger fuel.
  have left := visit_approx (Nat.le_max_left settles.choose fuel) (.refl .unlimited 0) {} {}
    atom cursor settles.choose_spec
  have right := visit_approx (Nat.le_max_right settles.choose fuel) (.refl .unlimited 0) {} {}
    atom cursor (loosened ▸ settled)
  exact left.symm.trans right

/-- With enough fuel, outcomes that depend on the fuel are all the same settled one, if there is one
to be reached at all. -/
def Converges (outcomes : Nat → Outcome Tree) (limit : Outcome Tree) : Prop :=
  limit.isSettled → ∃ fuel, ∀ more ≥ fuel, outcomes more = limit

theorem Converges.const (outcome : Outcome Tree) : Converges (fun _ => outcome) outcome :=
  fun _ => ⟨0, fun _ _ => rfl⟩

/-- What goes on from an outcome converges if it does so from the limit. -/
theorem Converges.resume {outcomes : Nat → Outcome Tree} {limit : Outcome Tree}
    (sub : Converges outcomes limit) {onMatch : Nat → Tree → Cursor → Outcome Tree}
    {onMatch' : Tree → Cursor → Outcome Tree} {onFailure : Nat → Outcome Tree}
    {onFailure' : Outcome Tree}
    (matched : ∀ tree stop, Converges (onMatch · tree stop) (onMatch' tree stop))
    (failed : Converges onFailure onFailure') :
    Converges (fun fuel => (outcomes fuel).resume (onMatch fuel) (onFailure fuel))
      (limit.resume onMatch' onFailure') := by
  intro settled
  obtain ⟨first, same⟩ := sub (Outcome.isSettled_of_resume settled)
  cases limit with
  | matched tree stop =>
    obtain ⟨second, later⟩ := matched tree stop settled
    refine ⟨max first second, fun more enough => ?_⟩
    simp only [same more (by omega)]
    exact later more (by omega)
  | failed =>
    obtain ⟨second, later⟩ := failed settled
    refine ⟨max first second, fun more enough => ?_⟩
    simp only [same more (by omega)]
    exact later more (by omega)
  | aborted error =>
    refine ⟨first, fun more enough => ?_⟩
    simp only [same more enough]
    rfl

/-- Bounded evaluations converge to the unbounded one. -/
theorem converges_visit (grammar : Grammar) (depth : Nat) (frame : Frame) (atom : Nat)
    (cursor : Cursor) :
    Converges (fun fuel => (visit grammar .unlimited fuel depth frame atom cursor).1)
      (grammar.eval atom cursor) := by
  intro settled
  by_cases settles : ∃ fuel,
      (visit grammar .unlimited fuel 0 {} atom cursor).1.isSettled
  · obtain ⟨fuel, reached⟩ := settles
    refine ⟨fuel, fun more enough => ?_⟩
    rw [visit_approx_eval grammar .unlimited fuel 0 {} atom cursor reached]
    exact visit_approx enough (looser_unlimited .unlimited 0 depth) {} frame atom
      cursor reached
  · rw [eval, dif_neg settles] at settled
    cases settled

/-- The visitor of the unbounded evaluation. It reports nothing. -/
noncomputable def evalVisitor (grammar : Grammar) : Plain.Visitor :=
  fun _ _ atom cursor => (grammar.eval atom cursor, [])

section Convergence

variable (grammar : Grammar) (depth : Nat) (frame : Frame)

theorem converges_perform (inner : Frame) (script : Script Tree) :
    Converges
      (fun fuel =>
        (perform (visit grammar .unlimited fuel depth inner) frame script).1)
      (perform (grammar.evalVisitor depth inner) frame script).1 := by
  induction script with
  | done ending => exact .const _
  | part atom cursor onMatch onFailure matched failed =>
    simp only [perform_part_outcome]
    exact (converges_visit grammar depth inner atom cursor).resume matched failed

theorem converges_attempt (atom : Nat) (cursor : Cursor) :
    Converges
      (fun fuel => (attempt grammar .unlimited (visit grammar .unlimited fuel) depth
        frame atom cursor).1)
      (attempt grammar .unlimited grammar.evalVisitor depth frame atom cursor).1 := by
  cases found : grammar.atoms[atom]? with
  | none =>
    simp only [attempt, found]
    exact .const _
  | some part =>
    simp only [attempt_unlimited _ depth frame cursor found]
    exact converges_perform grammar _ frame _ _

end Convergence

/-- What an atom gives when its parts are evaluated without bounds is what it gives itself. -/
theorem attempt_approx_eval (grammar : Grammar) (depth : Nat) (frame : Frame) (atom : Nat)
    (cursor : Cursor) :
    (attempt grammar .unlimited grammar.evalVisitor depth frame atom cursor).1.Approx
      (grammar.eval atom cursor) := by
  intro settled
  obtain ⟨fuel, same⟩ := converges_attempt grammar depth frame atom cursor settled
  have reached := same fuel (Nat.le_refl _)
  rw [← reached] at settled ⊢
  exact visit_approx_eval grammar .unlimited (fuel + 1) depth frame atom cursor settled

/-- What an atom gives without bounds is made of what its parts give without bounds. -/
theorem eval_approx_attempt (grammar : Grammar) (depth : Nat) (frame : Frame) (atom : Nat)
    (cursor : Cursor) :
    (grammar.eval atom cursor).Approx
      (attempt grammar .unlimited grammar.evalVisitor depth frame atom cursor).1 := by
  intro settled
  obtain ⟨fuel, same⟩ := converges_visit grammar depth frame atom cursor settled
  have reached := same (fuel + 1) (Nat.le_succ fuel)
  rw [← reached] at settled ⊢
  exact attempt_approx (fun {depth _} _ frame _ atom cursor =>
    visit_approx_eval grammar .unlimited fuel depth frame atom cursor) (.refl .unlimited depth) frame
    frame atom cursor settled

end Grammar

end Reflow
