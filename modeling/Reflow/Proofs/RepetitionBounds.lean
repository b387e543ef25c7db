import Reflow.Proofs.MemoTransparency

/-!
# The bounds of a repetition

A repetition takes matches one after the other, as long as they consume something and the upper
bound allows. It then takes along an empty match, if there is one, and looks at the number of what
it took (`repetition_greedy`). So it consumes the longest chain of matches that consume something,
and it succeeds if and only if there are enough matches in a row and no empty one comes too early:
behind an empty match no other is counted (`Parser.visit_repetition`).
-/

namespace Reflow

open List

/-! ## Chains of matches -/

/-- Steps one after the other, each from where the one before it ended. -/
inductive Chain (step : Tree → Cursor → Cursor → Prop) : List Tree → Cursor → Cursor → Prop where
  | nil (cursor : Cursor) : Chain step [] cursor cursor
  | cons {tree : Tree} {trees : List Tree} {start middle stop : Cursor}
      (first : step tree start middle) (rest : Chain step trees middle stop) :
      Chain step (tree :: trees) start stop

/-- Where a step starts, there is no other. -/
def Determined (step : Tree → Cursor → Cursor → Prop) : Prop :=
  ∀ ⦃tree tree' start stop stop'⦄, step tree start stop → step tree' start stop' →
    tree = tree' ∧ stop = stop'

namespace Chain

variable {step step' : Tree → Cursor → Cursor → Prop} {trees others : List Tree}
  {start middle stop : Cursor}

theorem mono (weaker : ∀ tree start stop, step tree start stop → step' tree start stop)
    (chain : Chain step trees start stop) : Chain step' trees start stop := by
  induction chain with
  | nil cursor => exact .nil cursor
  | cons first rest ih => exact .cons (weaker _ _ _ first) ih

theorem append (front : Chain step trees start middle) (back : Chain step others middle stop) :
    Chain step (trees ++ others) start stop := by
  induction front with
  | nil cursor => exact back
  | cons first rest ih => exact .cons first (ih back)

theorem split (chain : Chain step (trees ++ others) start stop) :
    ∃ middle, Chain step trees start middle ∧ Chain step others middle stop := by
  induction trees generalizing start with
  | nil => exact ⟨start, .nil start, chain⟩
  | cons tree trees ih =>
    cases chain with
    | cons first rest =>
      obtain ⟨middle, front, back⟩ := ih rest
      exact ⟨middle, .cons first front, back⟩

/-- Of two chains from one place, the longer one goes on from the shorter one. -/
theorem exists_more (determined : Determined step)
    (chain : Chain step trees start middle) (longer : Chain step others start stop)
    (size : trees.length ≤ others.length) :
    ∃ more, others = trees ++ more ∧ Chain step more middle stop := by
  induction chain generalizing others with
  | nil cursor => exact ⟨others, rfl, longer⟩
  | cons first rest ih =>
    cases longer with
    | nil => cases size
    | cons first' rest' =>
      obtain ⟨rfl, rfl⟩ := determined first first'
      obtain ⟨more, rfl, onward⟩ := ih rest' (Nat.le_of_succ_le_succ size)
      exact ⟨more, rfl, onward⟩

end Chain

/-- A match between two places, given the outcomes at every place. -/
def Round (meaning : Cursor → Outcome Tree) (tree : Tree) (start stop : Cursor) : Prop :=
  meaning start = .matched tree stop

/-- A match that consumes something. -/
def Stride (meaning : Cursor → Outcome Tree) (tree : Tree) (start stop : Cursor) : Prop :=
  Round meaning tree start stop ∧ stop.offset ≠ start.offset

theorem determined_round (meaning : Cursor → Outcome Tree) : Determined (Round meaning) := by
  intro tree tree' start stop stop' round round'
  have same := round.symm.trans round'
  cases same
  exact ⟨rfl, rfl⟩

theorem determined_stride (meaning : Cursor → Outcome Tree) : Determined (Stride meaning) :=
  fun _ _ _ _ _ stride stride' => determined_round meaning stride.1 stride'.1

variable {meaning : Cursor → Outcome Tree} {most : Option Nat}

theorem Chain.rounds {start stop : Cursor} {trees : List Tree}
    (chain : Chain (Stride meaning) trees start stop) : Chain (Round meaning) trees start stop :=
  chain.mono fun _ _ _ stride => stride.1

/-! ## What a repetition takes -/

/-- Why a repetition ends at a place after a number of rounds, and the empty match that it takes
along there. -/
inductive Halts (meaning : Cursor → Outcome Tree) (most : Option Nat) (count : Nat)
    (stop : Cursor) : List Tree → Prop where
  | full (reached : belowMost most count = false) : Halts meaning most count stop []
  | missed (failed : meaning stop = .failed) : Halts meaning most count stop []
  | idle {tree : Tree} (empty : Round meaning tree stop stop) : Halts meaning most count stop [tree]

/-- What a repetition takes from a place on, after a number of rounds: matches that consume
something, as many as there are below the upper bound, and maybe an empty one. -/
structure Greedy (meaning : Cursor → Outcome Tree) (most : Option Nat) (count : Nat)
    (start : Cursor) (strides : List Tree) (stop : Cursor) (idle : List Tree) : Prop where
  chain : Chain (Stride meaning) strides start stop
  within : ∀ bound ∈ most, count + strides.length ≤ bound
  halts : Halts meaning most (count + strides.length) stop idle

theorem Greedy.cons {count : Nat} {tree : Tree} {strides idle : List Tree}
    {start middle stop : Cursor} (stride : Stride meaning tree start middle)
    (greedy : Greedy meaning most (count + 1) middle strides stop idle) :
    Greedy meaning most count start (tree :: strides) stop idle := by
  have size : count + (tree :: strides).length = count + 1 + strides.length := by
    rw [length_cons]
    omega
  exact ⟨.cons stride greedy.chain, size ▸ greedy.within, size ▸ greedy.halts⟩

theorem belowMost_iff {count : Nat} :
    belowMost most count ↔ ∀ bound ∈ most, count < bound := by
  cases most <;> simp [belowMost]

theorem belowMost_eq_false_iff {count : Nat} :
    belowMost most count = false ↔ ∃ bound ∈ most, bound ≤ count := by
  cases most <;> simp [belowMost]

namespace Plain

/-- The loop of a repetition takes what a repetition takes. -/
theorem repetition_greedy {visit : Cursor → Trace}
    (covers : ∀ cursor, (visit cursor).1.Covers cursor) {start : Cursor} {least : Nat}
    {rounds : Nat} {trees : List Tree} {cursor : Cursor} (enough : cursor.rest.length < rounds)
    (within : ∀ bound ∈ most, trees.length ≤ bound) (unaborted : ∀ error,
      (repetition visit start least most rounds trees cursor).1 ≠ .aborted error) :
    ∃ strides stop idle,
      Greedy (fun place => (visit place).1) most trees.length cursor strides stop idle ∧
        (repetition visit start least most rounds trees cursor).1 =
          (endRepetition start stop least ((strides ++ idle).reverse ++ trees)).1 := by
  induction rounds generalizing trees cursor with
  | zero => cases enough
  | succ rounds ih =>
    rw [repetition_succ_outcome] at unaborted ⊢
    cases below : belowMost most trees.length with
    | false => exact ⟨[], cursor, [], ⟨.nil cursor, within, .full below⟩, rfl⟩
    | true =>
      simp only [below, if_true] at unaborted ⊢
      cases outcome : (visit cursor).1 with
      | aborted error => exact absurd (by rw [outcome]; rfl) (unaborted error)
      | failed => exact ⟨[], cursor, [], ⟨.nil cursor, within, .missed outcome⟩, rfl⟩
      | matched tree stop =>
        obtain ⟨text, takes⟩ := Tree.takes_of_covers tree (covers cursor tree stop outcome)
        simp only [outcome, Outcome.resume] at unaborted ⊢
        split
        · next empty =>
          obtain ⟨-, rfl⟩ := takes.eq_of_offset_eq empty
          exact ⟨[], stop, [tree], ⟨.nil stop, within, .idle outcome⟩, rfl⟩
        · next consumed =>
          rw [if_neg consumed] at unaborted
          have someChar : 0 < text.length := by
            refine length_pos_iff.2 fun nothing => consumed ?_
            rw [takes.offsetEq, nothing, Text.byteLength_nil, Nat.add_zero]
          have left := takes.length_eq
          have room : ∀ bound ∈ most, (tree :: trees).length ≤ bound := belowMost_iff.1 below
          obtain ⟨strides, place, idle, greedy, same⟩ := ih (by omega) room unaborted
          refine ⟨tree :: strides, place, idle, greedy.cons ⟨outcome, consumed⟩, ?_⟩
          rw [same]
          simp

end Plain

/-! ## Enough rounds -/

namespace Greedy

variable {meaning : Cursor → Outcome Tree} {most : Option Nat} {start stop : Cursor}
  {strides idle : List Tree} (greedy : Greedy meaning most 0 start strides stop idle)

include greedy

/-- Where a repetition ends, nothing more is consumed, unless the upper bound is reached. -/
theorem full_of_stride {tree : Tree} {place : Cursor} (stride : Stride meaning tree stop place) :
    ∃ bound ∈ most, bound ≤ strides.length := by
  have halts := greedy.halts
  cases halts with
  | full reached => simpa using belowMost_eq_false_iff.1 reached
  | missed failed => cases failed.symm.trans stride.1
  | idle empty =>
    obtain ⟨-, rfl⟩ := determined_round meaning empty stride.1
    exact absurd rfl stride.2

/-- No chain below the upper bound consumes more. -/
theorem longest {others : List Tree} {place : Cursor}
    (chain : Chain (Stride meaning) others start place)
    (within : ∀ bound ∈ most, others.length ≤ bound) : others.length ≤ strides.length := by
  rcases Nat.le_total others.length strides.length with fewer | more
  · exact fewer
  · obtain ⟨more, rfl, onward⟩ := greedy.chain.exists_more (determined_stride meaning) chain more
    cases onward with
    | nil => simp
    | cons first rest =>
      obtain ⟨bound, allowed, reached⟩ := greedy.full_of_stride first
      exact Nat.le_trans (within bound allowed) reached

/-- All that a repetition takes is a chain of matches. -/
theorem rounds : Chain (Round meaning) (strides ++ idle) start stop := by
  have halts := greedy.halts
  cases halts with
  | full | missed => simpa using greedy.chain.rounds
  | idle empty => exact greedy.chain.rounds.append (.cons empty (.nil stop))

theorem length_idle_le : idle.length ≤ 1 := by
  have halts := greedy.halts
  cases halts <;> simp

/-- A repetition takes enough if and only if there are enough matches in a row and none of them is
empty, except the last one that is needed. -/
theorem enough_iff {least : Nat} (ordered : ∀ bound ∈ most, least ≤ bound) :
    least ≤ (strides ++ idle).length ↔
      (∃ trees place, Chain (Round meaning) trees start place ∧ trees.length = least) ∧
        ¬ ∃ trees tree place, Chain (Stride meaning) trees start place ∧
          Round meaning tree place place ∧ trees.length + 1 < least := by
  have few := greedy.length_idle_le
  constructor
  · intro enough
    constructor
    · have chain := greedy.rounds
      rw [← take_append_drop least (strides ++ idle)] at chain
      obtain ⟨place, front, -⟩ := chain.split
      exact ⟨_, place, front, length_take_of_le enough⟩
    · rintro ⟨trees, tree, place, chain, empty, early⟩
      rw [length_append] at enough
      obtain ⟨more, rfl, onward⟩ :=
        chain.exists_more (determined_stride meaning) greedy.chain (by omega)
      cases onward with
      | nil =>
        rw [append_nil] at enough
        omega
      | cons first rest =>
        obtain ⟨-, rfl⟩ := determined_round meaning empty first.1
        exact first.2 rfl
  · rintro ⟨⟨trees, place, chain, rfl⟩, timely⟩
    rcases Nat.lt_or_ge (strides ++ idle).length trees.length with fewer | enough
    · rw [length_append] at fewer
      obtain ⟨more, rfl, onward⟩ :=
        greedy.chain.rounds.exists_more (determined_round meaning) chain (by omega)
      have halts := greedy.halts
      cases halts with
      | full reached =>
        obtain ⟨bound, allowed, low⟩ := belowMost_eq_false_iff.1 reached
        have allows := ordered bound allowed
        rw [length_nil] at fewer
        omega
      | missed failed =>
        cases onward with
        | nil => simp at fewer
        | cons first rest => cases failed.symm.trans first
      | idle empty => exact absurd ⟨strides, _, stop, greedy.chain, empty, fewer⟩ timely
    · exact enough

end Greedy

/-! ## Repetitions in a grammar -/

theorem Outcome.isSettled_of_unaborted {α : Type} {outcome : Outcome α}
    (unaborted : ∀ error, outcome ≠ .aborted error) : outcome.isSettled := by
  cases outcome with
  | matched | failed => rfl
  | aborted error => exact absurd rfl (unaborted error)

/-- A repetition takes what a repetition takes, and matches if that is enough. -/
theorem Grammar.eval_repetition {grammar : Grammar} {index inner least : Nat}
    (here : grammar.atoms[index]? = some (.repetition inner least most)) {cursor : Cursor}
    (unaborted : ∀ error, grammar.eval index cursor ≠ .aborted error) :
    ∃ strides stop idle, Greedy (grammar.eval inner) most 0 cursor strides stop idle ∧
      grammar.eval index cursor = if (strides ++ idle).length < least then .failed
        else .matched (.list (cursor.spanTo stop) (strides ++ idle)) stop := by
  have same := grammar.eval_approx_attempt 0 {} index cursor
    (Outcome.isSettled_of_unaborted unaborted)
  simp only [Plain.attempt, here] at same
  rw [← same] at unaborted ⊢
  obtain ⟨strides, stop, idle, greedy, ended⟩ :=
    Plain.repetition_greedy (fun place => grammar.eval_covers inner place)
      (Nat.lt_succ_self cursor.rest.length) (fun _ _ => Nat.zero_le _) unaborted
  refine ⟨strides, stop, idle, greedy, ?_⟩
  rw [ended, append_nil, Plain.endRepetition, length_reverse]
  split
  · rfl
  · rw [Plain.listTree, reverse_reverse]

namespace Parser.Shows

variable {arena : Arena} {outcome : Outcome Node} {meaning : Outcome Tree}
  (shown : Shows arena outcome meaning)

include shown

theorem unaborted (unaborted : ∀ error, outcome ≠ .aborted error) :
    ∀ error, meaning ≠ .aborted error := by
  cases shown with
  | matched | failed => simp
  | aborted error => exact absurd rfl (unaborted error)

theorem exists_matched_iff {stop : Cursor} :
    (∃ node, outcome = .matched node stop) ↔ ∃ tree, meaning = .matched tree stop := by
  cases shown <;> simp

end Parser.Shows

/-- In every reachable state, a repetition that is not aborted matches at a place if and only if
its atom matches there as often in a row as the lower bound asks, and no match consumes nothing
before the last one that is needed. Then it has consumed the longest chain of matches that each
consume something, of those that keep to the upper bound. -/
theorem Parser.tryAtom_repetition (parser : Parser) {state : ParserState}
    (reachable : parser.Reachable state) {index inner least : Nat} {most : Option Nat}
    (here : parser.grammar.atoms[index]? = some (.repetition inner least most))
    (ordered : ∀ bound ∈ most, least ≤ bound) {cursor : Cursor} (inside : cursor.In parser.input)
    (fuel : Nat)
    (unaborted : ∀ error, (parser.tryAtom fuel index cursor state).1 ≠ .aborted error) :
    ((∃ node stop, (parser.tryAtom fuel index cursor state).1 = .matched node stop) ↔
      (∃ trees stop, Chain (Round (parser.grammar.eval inner)) trees cursor stop ∧
        trees.length = least) ∧
      ¬ ∃ trees tree stop, Chain (Stride (parser.grammar.eval inner)) trees cursor stop ∧
        Round (parser.grammar.eval inner) tree stop stop ∧ trees.length + 1 < least) ∧
    ∀ node stop, (parser.tryAtom fuel index cursor state).1 = .matched node stop →
      ∃ strides, Chain (Stride (parser.grammar.eval inner)) strides cursor stop ∧
        (∀ bound ∈ most, strides.length ≤ bound) ∧
        ∀ others place, Chain (Stride (parser.grammar.eval inner)) others cursor place →
          (∀ bound ∈ most, others.length ≤ bound) → others.length ≤ strides.length := by
  simp only [tryAtom_eq] at unaborted ⊢
  have faithful := faithful_visit parser (Nat.zero_le fuel) 0 state.frame {} index inside
    reachable.sound
  have shown := faithful.shows (Outcome.isSettled_of_unaborted unaborted)
  obtain ⟨strides, stop, idle, greedy, meant⟩ :=
    Grammar.eval_repetition here (shown.unaborted unaborted)
  have matchedIff : ∀ place,
      (∃ node, (parser.visit fuel state.frame index cursor state).1 = .matched node place) ↔
        least ≤ (strides ++ idle).length ∧ stop = place := by
    intro place
    rw [shown.exists_matched_iff, meant]
    split
    · next few =>
      constructor
      · rintro ⟨tree, impossible⟩
        cases impossible
      · rintro ⟨enough, -⟩
        exact absurd few (Nat.not_lt.2 enough)
    · next enough =>
      constructor
      · rintro ⟨tree, same⟩
        cases same
        exact ⟨Nat.le_of_not_lt enough, rfl⟩
      · rintro ⟨-, rfl⟩
        exact ⟨_, rfl⟩
  constructor
  · rw [← greedy.enough_iff ordered]
    constructor
    · rintro ⟨node, place, found⟩
      exact ((matchedIff place).1 ⟨node, found⟩).1
    · intro enough
      obtain ⟨node, found⟩ := (matchedIff stop).2 ⟨enough, rfl⟩
      exact ⟨node, stop, found⟩
  · intro node place found
    obtain ⟨-, rfl⟩ := (matchedIff place).1 ⟨node, found⟩
    refine ⟨strides, greedy.chain, fun bound allowed => ?_, fun others place => greedy.longest⟩
    have within := greedy.within bound allowed
    omega

/-- A letter two or three times, on four of them. -/
def lettersTwice : Parser where
  grammar := ⟨#[.literal "a", .repetition 0 2 (some 3)], 1, {}⟩
  input := "aaaa".toList

/-- The first three letters are taken, and no chain of up to three takes more. -/
theorem tryAtom_lettersTwice : ∃ node,
    (lettersTwice.tryAtom 2 1 ⟨0, "aaaa".toList⟩ {}).1 = .matched node ⟨3, ['a']⟩ ∧
    ∃ strides, Chain (Stride (lettersTwice.grammar.eval 0)) strides ⟨0, "aaaa".toList⟩ ⟨3, ['a']⟩ ∧
      strides.length ≤ 3 := by
  have fresh : lettersTwice.Reachable {} := ⟨{}, .refl⟩
  have inside : Cursor.In ⟨0, "aaaa".toList⟩ lettersTwice.input := .start _
  have shown := (fresh.sound.shows_plain (Nat.le_refl 2) (ParserState.frame {}) {} 1 inside
    (by decide)).1
  rw [← Parser.tryAtom_eq] at shown
  obtain ⟨node, found⟩ := shown.exists_matched_iff.2 ⟨_, rfl⟩
  have here : lettersTwice.grammar.atoms[1]? = some (.repetition 0 2 (some 3)) := rfl
  have bounds := lettersTwice.tryAtom_repetition fresh here (by simp) inside 2
    (fun error => by rw [found]; simp)
  obtain ⟨strides, chain, within, -⟩ := bounds.2 node _ found
  exact ⟨node, found, strides, chain, within 3 rfl⟩

/-- Nothing, at least twice. -/
def nothingTwice : Parser where
  grammar := ⟨#[.literal "", .repetition 0 2 none], 1, {}⟩
  input := []

/-- Nothing matches twice in a row, but the repetition fails. -/
theorem tryAtom_nothingTwice :
    (∃ trees stop, Chain (Round (nothingTwice.grammar.eval 0)) trees ⟨0, []⟩ stop ∧
      trees.length = 2) ∧
    (nothingTwice.tryAtom 2 1 ⟨0, []⟩ {}).1 = .failed := by
  have fresh : nothingTwice.Reachable {} := ⟨{}, .refl⟩
  have empty : Round (nothingTwice.grammar.eval 0) (.text ⟨0, 0⟩) ⟨0, []⟩ ⟨0, []⟩ :=
    nothingTwice.grammar.visit_approx_eval .unlimited 1 0 {} 0 ⟨0, []⟩ rfl
  refine ⟨⟨_, _, .cons empty (.cons empty (.nil _)), rfl⟩, ?_⟩
  have shown := (fresh.sound.shows_plain (Nat.le_refl 2) (ParserState.frame {}) {} 1 (.start [])
    (by decide)).1
  have failed : (Plain.visit nothingTwice.grammar nothingTwice.limits 2 0 {} 1 ⟨0, []⟩).1 =
      .failed := rfl
  rw [failed, ← Parser.tryAtom_eq] at shown
  generalize (nothingTwice.tryAtom 2 1 ⟨0, []⟩ {}).1 = outcome at shown ⊢
  cases shown
  rfl

end Reflow
