import Mathlib.Data.Finset.Prod
import Mathlib.Order.Monotone.Basic
import Reflow.Proofs.FailureReports

/-!
# How deep an evaluation goes

Plain evaluation of an atom at a place recurses into its parts. It settles within a depth exactly if
everything that it tries settles within one less (`Grammar.settlesWithin_succ_iff`), so an
evaluation that settles never comes back to itself. There are only as many different evaluations as
there are pairs of an atom and a place, and that bounds the depth of every evaluation that settles
at all (`Grammar.SettlesWithin.bounded`).
-/

namespace Reflow

open Plain Finset

variable {input : Text}

/-! ## What a script tries if its parts end as they mean -/

namespace Script

variable {α : Type} {grammar : Grammar} {tries : Nat → Cursor → Prop}

/-- Everything that a script tries satisfies a condition, if every part ends as its evaluation
without bounds does. -/
def Along (grammar : Grammar) (tries : Nat → Cursor → Prop) : Script α → Prop
  | done _ => True
  | part atom cursor onMatch onFailure =>
    tries atom cursor ∧
      (∀ tree stop, grammar.eval atom cursor = .matched tree stop →
        ∀ value, (onMatch value stop).Along grammar tries) ∧
      (grammar.eval atom cursor = .failed → onFailure.Along grammar tries)

theorem Along.imp {tries' : Nat → Cursor → Prop} {script : Script α}
    (along : script.Along grammar tries) (weaker : ∀ atom cursor, tries atom cursor →
      tries' atom cursor) : script.Along grammar tries' := by
  induction script with
  | done ending => exact trivial
  | part atom cursor onMatch onFailure matched failed =>
    obtain ⟨tried, onward, otherwise⟩ := along
    exact ⟨weaker _ _ tried, fun tree stop meant value =>
      matched value stop (onward tree stop meant value), fun meant => failed (otherwise meant)⟩

/-- What is tried along the way is tried at places of the input. -/
theorem Along.inside {parts : List Nat} {faults : String → Prop} {script : Script α}
    (along : script.Along grammar tries)
    (all : script.All (fun part place => part ∈ parts ∧ place.In input) (·.In input) faults) :
    script.Along grammar (fun part place => tries part place ∧ place.In input) := by
  induction script with
  | done ending => exact trivial
  | part atom cursor onMatch onFailure matched failed =>
    obtain ⟨tried, onward, otherwise⟩ := along
    obtain ⟨⟨_, inside⟩, later, instead⟩ := all
    refine ⟨⟨tried, inside⟩, fun tree stop meant value => ?_, fun meant => ?_⟩
    · obtain ⟨_, taken⟩ := Tree.takes_of_covers tree
        (grammar.eval_covers atom cursor tree stop meant)
      exact matched value stop (onward tree stop meant value)
        (later value stop (inside.after taken))
    · exact failed (otherwise meant) instead

end Script

/-! ## Settling within a depth -/

namespace Grammar

/-- Plain evaluation of an atom at a place settles within a depth of recursion, if nothing else
bounds it. -/
def SettlesWithin (grammar : Grammar) (fuel atom : Nat) (cursor : Cursor) : Prop :=
  (visit grammar .unlimited fuel 0 {} atom cursor).1.isSettled

instance (grammar : Grammar) (fuel atom : Nat) (cursor : Cursor) :
    Decidable (grammar.SettlesWithin fuel atom cursor) :=
  inferInstanceAs (Decidable (_ = true))

variable {grammar : Grammar} {fuel atom : Nat} {cursor : Cursor}

/-- Neither the nesting depth of rules nor the frame has a say in whether an evaluation settles. -/
theorem settlesWithin_iff (depth : Nat) (frame : Frame) : grammar.SettlesWithin fuel atom cursor ↔
    (visit grammar .unlimited fuel depth frame atom cursor).1.isSettled := by
  have loose := looser_unlimited .unlimited
  constructor
  · intro settled
    rw [visit_approx (Nat.le_refl fuel) (loose 0 depth) {} frame atom cursor settled]
    exact settled
  · intro settled
    rw [SettlesWithin, visit_approx (Nat.le_refl fuel) (loose depth 0) frame {} atom cursor
      settled]
    exact settled

section Settles

variable (settles : grammar.SettlesWithin fuel atom cursor)

include settles

theorem SettlesWithin.mono {more : Nat}
    (enough : fuel ≤ more) : grammar.SettlesWithin more atom cursor := by
  rw [SettlesWithin, visit_approx enough (.refl .unlimited 0) {} {} atom cursor settles]
  exact settles

theorem SettlesWithin.eval_eq (depth : Nat) (frame : Frame) :
    (visit grammar .unlimited fuel depth frame atom cursor).1 = grammar.eval atom cursor :=
  (grammar.visit_approx_eval .unlimited fuel depth frame atom cursor
    ((settlesWithin_iff depth frame).mp settles)).symm

/-- There is a least depth within which an evaluation settles. -/
theorem SettlesWithin.exists_least :
    ∃ less < fuel, grammar.SettlesWithin (less + 1) atom cursor ∧
      ¬ grammar.SettlesWithin less atom cursor := by
  induction fuel with
  | zero => cases settles
  | succ fuel ih =>
    by_cases sooner : grammar.SettlesWithin fuel atom cursor
    · obtain ⟨less, fewer, least⟩ := ih sooner
      exact ⟨less, Nat.lt_succ_of_lt fewer, least⟩
    · exact ⟨fuel, Nat.lt_succ_self fuel, settles, sooner⟩

end Settles

/-- If the performance of a script settles, so does everything that it tries. The values of the
parts have no say in what that is. -/
theorem along_of_settled {α : Type} {depth : Nat} {inner frame : Frame} {script : Script Tree}
    {script' : Script α} (alike : script.Alike script')
    (settled : (perform (visit grammar .unlimited fuel depth inner) frame
      script).1.isSettled) : script'.Along grammar (grammar.SettlesWithin fuel) := by
  induction alike with
  | done same => exact trivial
  | @part atom cursor onMatch onFailure onMatch' onFailure' _ _ matched failed =>
    rw [perform] at settled
    have settles : grammar.SettlesWithin fuel atom cursor := by
      rw [settlesWithin_iff depth inner]
      generalize visit grammar .unlimited fuel depth inner atom cursor = trace at settled ⊢
      obtain ⟨outcome, misses⟩ := trace
      cases outcome with
      | matched tree stop => rfl
      | failed => rfl
      | aborted error => exact settled
    refine ⟨settles, fun tree stop meant value => ?_, fun meant => ?_⟩
    all_goals
      rw [← settles.eval_eq depth inner] at meant
      generalize visit grammar .unlimited fuel depth inner atom cursor = trace
        at settled meant
      obtain ⟨outcome, misses⟩ := trace
      cases meant
    · exact matched tree value stop settled
    · exact failed settled

/-- If everything that a script tries settles, so does its performance. -/
theorem isSettled_perform {depth : Nat} {inner frame : Frame} {script : Script Tree}
    (along : script.Along grammar (grammar.SettlesWithin fuel)) :
    (perform (visit grammar .unlimited fuel depth inner) frame
      script).1.isSettled := by
  induction script with
  | done ending => cases ending <;> rfl
  | part atom cursor onMatch onFailure matched failed =>
    obtain ⟨settles, onward, otherwise⟩ := along
    have meant := settles.eval_eq depth inner
    rw [settlesWithin_iff depth inner] at settles
    rw [perform]
    generalize visit grammar .unlimited fuel depth inner atom cursor = trace
      at settles meant ⊢
    obtain ⟨outcome, misses⟩ := trace
    cases outcome with
    | matched tree stop => exact matched tree stop (onward tree stop meant.symm tree)
    | failed => exact failed (otherwise meant.symm)
    | aborted error => exact settles

section Atoms

variable {index : Nat} {found : Atom} (here : grammar.atoms[index]? = some found)

include here

/-- An atom settles within a depth if what it tries settles within one less, and the other way
round. -/
theorem settlesWithin_succ_iff : grammar.SettlesWithin (fuel + 1) index cursor ↔
    (Script.ofAtom grammar cursor found : Script Tree).Along grammar
      (grammar.SettlesWithin fuel) := by
  rw [SettlesWithin, visit_succ_unlimited fuel 0 {} cursor here]
  exact ⟨along_of_settled (Script.alike_ofAtom grammar cursor found), isSettled_perform⟩

/-- What an atom tries at a place of the input settles sooner than the atom. -/
theorem SettlesWithin.parts {α : Type} (inside : cursor.In input)
    (settles : grammar.SettlesWithin (fuel + 1) index cursor) :
    (Script.ofAtom grammar cursor found : Script α).Along grammar
      (fun part place => grammar.SettlesWithin fuel part place ∧ place.In input) := by
  rw [SettlesWithin, visit_succ_unlimited fuel 0 {} cursor here] at settles
  exact (along_of_settled (Script.alike_ofAtom grammar cursor found) settles).inside
    (Script.all_ofAtom grammar found inside)

end Atoms

/-- An atom that is not in the table is found missing at once. -/
theorem settlesWithin_of_missing (missing : grammar.atoms[atom]? = none) (fuel : Nat)
    (cursor : Cursor) : grammar.SettlesWithin (fuel + 1) atom cursor := by
  rw [SettlesWithin, visit, attempt, missing]
  rfl

end Grammar

/-! ## Pairs of an atom and a place -/

def Cursor.behind (input : Text) (count : Nat) : Cursor :=
  ⟨Text.byteLength (input.take count), input.drop count⟩

theorem Cursor.in_behind (input : Text) (count : Nat) : (behind input count).In input :=
  ⟨input.take count, (List.take_append_drop count input).symm, (Nat.zero_add _).symm⟩

/-- Every place of an input stands behind some of its characters. -/
theorem Cursor.In.exists_behind {cursor : Cursor} (inside : cursor.In input) :
    ∃ count < input.length + 1, cursor = behind input count := by
  obtain ⟨before, taken⟩ := inside
  have whole : input = before ++ cursor.rest := taken.restEq
  refine ⟨before.length, ?_, taken.stop_unique ⟨?_, ?_⟩⟩
  · rw [whole, List.length_append]
    omega
  · simp [behind, whole]
  · simp [behind, whole]

namespace Grammar

variable {grammar : Grammar} {input : Text}

/-- The pairs of an atom and a number of characters such that the atom settles behind them within a
depth. -/
def settledPairs (grammar : Grammar) (input : Text) (fuel : Nat) : Finset (Nat × Nat) :=
  (range grammar.atoms.size ×ˢ range (input.length + 1)).filter fun pair =>
    grammar.SettlesWithin fuel pair.1 (.behind input pair.2)

variable {fuel : Nat}

theorem mem_settledPairs {pair : Nat × Nat} :
    pair ∈ grammar.settledPairs input fuel ↔
      (pair.1 < grammar.atoms.size ∧ pair.2 < input.length + 1) ∧
        grammar.SettlesWithin fuel pair.1 (.behind input pair.2) := by
  simp [settledPairs]

theorem settledPairs_subset {more : Nat} (enough : fuel ≤ more) :
    grammar.settledPairs input fuel ⊆ grammar.settledPairs input more := by
  intro pair member
  rw [mem_settledPairs] at member ⊢
  exact ⟨member.1, member.2.mono enough⟩

theorem card_settledPairs_le (fuel : Nat) :
    (grammar.settledPairs input fuel).card ≤ grammar.atoms.size * (input.length + 1) := by
  refine (card_filter_le _ _).trans ?_
  rw [card_product, card_range, card_range]

/-- What settles at some depth settles at every depth at which the same pairs do. -/
theorem SettlesWithin.of_pairs {more atom : Nat} {cursor : Cursor}
    (settles : grammar.SettlesWithin fuel atom cursor)
    (same : grammar.settledPairs input (more + 1) = grammar.settledPairs input fuel)
    (inside : cursor.In input) : grammar.SettlesWithin (more + 1) atom cursor := by
  by_cases present : atom < grammar.atoms.size
  · obtain ⟨count, within, rfl⟩ := inside.exists_behind
    have member : (atom, count) ∈ grammar.settledPairs input fuel :=
      mem_settledPairs.mpr ⟨⟨present, within⟩, settles⟩
    rw [← same] at member
    exact (mem_settledPairs.mp member).2
  · exact settlesWithin_of_missing (Array.getElem?_eq_none (Nat.le_of_not_lt present)) more cursor

/-- A depth at which no more pairs settle than at the one before is the last one at which any
does. -/
theorem settledPairs_stable
    (same : grammar.settledPairs input (fuel + 1) = grammar.settledPairs input (fuel + 2)) :
    grammar.settledPairs input (fuel + 2) = grammar.settledPairs input (fuel + 3) := by
  refine (settledPairs_subset (Nat.le_succ _)).antisymm fun pair member => ?_
  rw [mem_settledPairs] at member ⊢
  obtain ⟨bounds, settles⟩ := member
  have here := Array.getElem?_eq_getElem bounds.1
  refine ⟨bounds, (settlesWithin_succ_iff here).mpr ?_⟩
  refine (settles.parts here (Cursor.in_behind input pair.2)).imp ?_
  exact fun part place inner => inner.1.of_pairs same inner.2

/-- An evaluation that settles at all settles within a depth of as many levels as there are pairs of
an atom and a place, and one more for an atom that is missing. -/
theorem SettlesWithin.bounded {atom : Nat} {cursor : Cursor}
    (settles : grammar.SettlesWithin fuel atom cursor) (inside : cursor.In input) :
    grammar.SettlesWithin (grammar.atoms.size * (input.length + 1) + 1) atom cursor := by
  generalize bound : grammar.atoms.size * (input.length + 1) = pairs
  rcases Nat.le_total fuel (pairs + 1) with few | many
  · exact settles.mono few
  · have monotone : Monotone fun depth => (grammar.settledPairs input (depth + 1)).card :=
      fun _ _ less => card_le_card (settledPairs_subset (Nat.succ_le_succ less))
    have stable := Nat.stabilises_of_monotone monotone
      (fun depth => bound ▸ card_settledPairs_le (depth + 1))
      (fun depth same => congrArg card (settledPairs_stable
        (eq_of_subset_of_card_le (settledPairs_subset (Nat.le_succ _)) same.ge)))
      (Nat.le_sub_of_add_le many)
    rw [Nat.sub_add_cancel (Nat.le_of_add_left_le many)] at stable
    have same : grammar.settledPairs input (pairs + 1) = grammar.settledPairs input fuel :=
      eq_of_subset_of_card_le (settledPairs_subset many) stable.le
    exact settles.of_pairs same inside

end Grammar

end Reflow
