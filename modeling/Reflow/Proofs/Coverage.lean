import Reflow.Proofs.Place
import Reflow.Proofs.PlainMeaning

/-!
# Trees cover the text they match

A tree covers the text between two places if its span goes from one to the other and the same holds
below it: the items of a list cover adjacent pieces that make up the list, and a capture covers what
its value covers. Every tree that plain evaluation builds covers what it matched (`visit_covers`).
-/

namespace Reflow

open Text Outcome

variable {tree : Tree} {start stop : Cursor} {trees : List Tree}

namespace Tree

mutual

/-- Every node of a tree spans what it matched between two places. -/
def Covers : Tree → Cursor → Cursor → Prop
  | nil offset, start, stop => start = stop ∧ offset = start.offset
  | text span, start, stop => span = start.spanTo stop ∧ ∃ taken, start.Takes taken stop
  | list span items, start, stop => span = start.spanTo stop ∧ coversAll items start stop
  | field span _ value, start, stop => span = start.spanTo stop ∧ value.Covers start stop

/-- Trees cover adjacent pieces of what is between two places. -/
def coversAll : List Tree → Cursor → Cursor → Prop
  | [], start, stop => start = stop
  | first :: rest, start, stop => ∃ middle, first.Covers start middle ∧ coversAll rest middle stop

end

theorem span_of_covers (covers : tree.Covers start stop) : tree.span = start.spanTo stop := by
  cases tree with
  | nil offset =>
    obtain ⟨rfl, rfl⟩ := covers
    rfl
  | text span => exact covers.1
  | list span items => exact covers.1
  | field span label value => exact covers.1

mutual

theorem takes_of_covers : (tree : Tree) → {start stop : Cursor} → tree.Covers start stop →
    ∃ taken, start.Takes taken stop
  | nil _, _, _, covers => ⟨[], covers.1 ▸ .refl _⟩
  | text _, _, _, covers => covers.2
  | list _ items, _, _, covers => takes_of_coversAll items covers.2
  | field _ _ value, _, _, covers => takes_of_covers value covers.2

theorem takes_of_coversAll : (trees : List Tree) → {start stop : Cursor} →
    coversAll trees start stop → ∃ taken, start.Takes taken stop
  | [], _, _, covers => ⟨[], covers ▸ .refl _⟩
  | first :: rest, _, _, ⟨_, front, back⟩ => by
    obtain ⟨before, taken⟩ := takes_of_covers first front
    obtain ⟨behind, taken'⟩ := takes_of_coversAll rest back
    exact ⟨before ++ behind, taken.trans taken'⟩

end

/-- One more tree covers one more piece. -/
theorem coversAll_concat {middle : Cursor} (covers : coversAll trees start middle)
    (last : tree.Covers middle stop) : coversAll (trees ++ [tree]) start stop := by
  induction trees generalizing start with
  | nil =>
    obtain rfl : start = middle := covers
    exact ⟨stop, last, rfl⟩
  | cons first rest ih =>
    obtain ⟨next, front, back⟩ := covers
    exact ⟨next, front, ih back⟩

end Tree

namespace Outcome

/-- If an outcome is a match, its tree covers what is between two places. -/
def Covers (outcome : Outcome Tree) (start : Cursor) : Prop :=
  ∀ tree stop, outcome = .matched tree stop → tree.Covers start stop

theorem covers_failed (start : Cursor) : Covers .failed start := by
  intro tree stop impossible
  cases impossible

theorem covers_matched (covers : tree.Covers start stop) : Covers (.matched tree stop) start := by
  intro tree' stop' same
  cases same
  exact covers

theorem Covers.resume {outcome : Outcome Tree} {inner : Cursor} (sub : outcome.Covers inner)
    {onMatch : Tree → Cursor → Outcome Tree} {onFailure : Outcome Tree}
    (matched : ∀ tree stop, tree.Covers inner stop → (onMatch tree stop).Covers start)
    (failed : onFailure.Covers start) : (outcome.resume onMatch onFailure).Covers start := by
  cases outcome with
  | matched tree stop => exact matched tree stop (sub tree stop rfl)
  | failed => exact failed
  | aborted error =>
    intro tree stop impossible
    cases impossible

end Outcome

namespace Plain

theorem piece_covers (frame : Frame) (start : Cursor) (what : String) {stop : Option Cursor}
    (taken : ∀ place, stop = some place → ∃ text, start.Takes text place) :
    (piece frame start stop what).1.Covers start := by
  cases stop with
  | none => exact covers_failed start
  | some place => exact covers_matched ⟨rfl, taken place rfl⟩

theorem listTree_covers (covers : Tree.coversAll trees.reverse start stop) :
    (listTree start stop trees).1.Covers start :=
  covers_matched ⟨rfl, covers⟩

theorem coversAll_reverse_cons {middle : Cursor}
    (covers : Tree.coversAll trees.reverse start middle) (last : tree.Covers middle stop) :
    Tree.coversAll (tree :: trees).reverse start stop := by
  rw [List.reverse_cons]
  exact Tree.coversAll_concat covers last

theorem endRepetition_covers (least : Nat) (covers : Tree.coversAll trees.reverse start stop) :
    (endRepetition start stop least trees).1.Covers start := by
  unfold endRepetition
  split
  · exact covers_failed start
  · exact listTree_covers covers

section Visiting

variable {visit : Nat → Cursor → Trace} (sub : ∀ atom cursor, (visit atom cursor).1.Covers cursor)

include sub

theorem sequence_covers (parts : List Nat) {cursor : Cursor}
    (covers : Tree.coversAll trees.reverse start cursor) :
    (sequence visit start parts trees cursor).1.Covers start := by
  induction parts generalizing trees cursor with
  | nil => exact listTree_covers covers
  | cons atom rest ih =>
    rw [sequence_cons_outcome]
    refine (sub atom cursor).resume (fun tree stop taken => ?_) (covers_failed start)
    exact ih (coversAll_reverse_cons covers taken)

theorem choice_covers (cursor : Cursor) (options : List Nat) :
    (choice visit cursor options).1.Covers cursor := by
  induction options with
  | nil => exact covers_failed cursor
  | cons atom rest ih =>
    rw [choice_cons_outcome]
    exact (sub atom cursor).resume (fun _ _ taken => covers_matched taken) ih

theorem repetition_covers (atom : Nat) (least : Nat) (most : Option Nat) (rounds : Nat)
    {cursor : Cursor} (covers : Tree.coversAll trees.reverse start cursor) :
    (repetition (visit atom) start least most rounds trees cursor).1.Covers start := by
  induction rounds generalizing trees cursor with
  | zero => exact endRepetition_covers least covers
  | succ rounds ih =>
    rw [repetition_succ_outcome]
    split
    · refine (sub atom cursor).resume (fun tree stop taken => ?_)
        (endRepetition_covers least covers)
      have more := coversAll_reverse_cons covers taken
      split
      · next idle =>
        -- A round that consumed nothing stands where it started.
        obtain ⟨_, takes⟩ := Tree.takes_of_covers tree taken
        obtain ⟨_, rfl⟩ := takes.eq_of_offset_eq idle
        exact endRepetition_covers least more
      · exact ih more
    · exact endRepetition_covers least covers

end Visiting

theorem checkOutcome_covers (cursor : Cursor) (passed : Bool) :
    (checkOutcome cursor passed).Covers cursor := by
  cases passed with
  | false => exact covers_failed cursor
  | true => exact covers_matched ⟨rfl, rfl⟩

theorem attempt_covers {grammar : Grammar} {limits : Limits} {visit : Visitor}
    (sub : ∀ depth frame atom cursor, (visit depth frame atom cursor).1.Covers cursor)
    (depth : Nat) (frame : Frame) (atom : Nat) (cursor : Cursor) :
    (attempt grammar limits visit depth frame atom cursor).1.Covers cursor := by
  unfold attempt
  cases grammar.atoms[atom]? with
  | none =>
    intro tree stop impossible
    cases impossible
  | some found =>
    cases found with
    | literal text =>
      exact piece_covers frame cursor _ fun place found =>
        ⟨_, matchLiteral_eq_some.mp found⟩
    | regex pattern =>
      simp only
      cases Regex.anchored? pattern with
      | none =>
        intro tree stop impossible
        cases impossible
      | some machine =>
        exact piece_covers frame cursor _ fun place found => takes_of_matchRegex found
    | sequence parts => exact sequence_covers (sub depth frame) parts rfl
    | choice options => exact choice_covers (sub depth frame) cursor options
    | repetition inner least most =>
      exact repetition_covers (sub depth frame) inner least most _ rfl
    | capture label inner =>
      simp only [mapTree_outcome]
      exact (sub _ _ inner cursor).resume
        (fun _ _ taken => covers_matched ⟨rfl, taken⟩) (covers_failed cursor)
    | rule inner =>
      simp only
      split
      · intro tree stop impossible
        cases impossible
      · exact sub _ _ inner cursor
    | lookahead inner positive =>
      simp only [lookahead_outcome]
      exact (sub _ _ inner cursor).resume (fun _ _ _ => checkOutcome_covers cursor _)
        (checkOutcome_covers cursor _)
    | flat inner =>
      simp only [mapTree_outcome]
      exact (sub _ _ inner cursor).resume
        (fun tree _ taken => covers_matched ⟨rfl, Tree.takes_of_covers tree taken⟩)
        (covers_failed cursor)

/-- Every tree that plain evaluation builds covers what it matched. -/
theorem visit_covers (grammar : Grammar) (limits : Limits) (fuel depth : Nat) (frame : Frame)
    (atom : Nat) (cursor : Cursor) :
    (visit grammar limits fuel depth frame atom cursor).1.Covers cursor := by
  induction fuel generalizing depth frame atom cursor with
  | zero =>
    intro tree stop impossible
    cases impossible
  | succ fuel ih => exact attempt_covers ih depth frame atom cursor

end Plain

/-- So does every tree of the unbounded evaluation. -/
theorem Grammar.eval_covers (grammar : Grammar) (atom : Nat) (cursor : Cursor) :
    (grammar.eval atom cursor).Covers cursor := by
  unfold eval
  split
  · exact Plain.visit_covers grammar _ _ _ _ atom cursor
  · intro tree stop impossible
    cases impossible

end Reflow
