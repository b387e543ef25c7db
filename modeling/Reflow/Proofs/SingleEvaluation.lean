import Mathlib.Data.List.ProdSigma
import Mathlib.Data.List.Perm.Subperm
import Reflow.Proofs.EvaluationDepth

/-!
# Every pair is evaluated once

A parser evaluates an atom at a place only if the memo does not know the pair, and puts the outcome
there. The memo knows nothing of evaluations that are still going on. But what they wait for settles
sooner than they do, so it is none of them: where the parse finishes, no pair is evaluated twice, no
entry of the memo is overwritten, and the memo holds exactly the pairs that were evaluated
(`Parser.parseFront_evaluates_once`).
-/

namespace Reflow.Parser

open List

variable {cursor : Cursor} {frame : Frame} {atom depth : Nat} {entry : Option (Node × Cursor)}
  {parser : Parser} {state : ParserState}

/-! ## Performances that finish -/

/-- The script that is left behind a part, given how that ended. -/
def onward (onMatch : Node → Cursor → Script Node) (onFailure : Script Node) :
    Option (Node × Cursor) → Script Node
  | some (node, stop) => onMatch node stop
  | none => onFailure

section Parts

variable {visit : Visitor} {inner frame : Frame} {atom : Nat} {cursor : Cursor}
  {onMatch : Node → Cursor → Script Node} {onFailure : Script Node} {state after : ParserState}
  {ended : Option (Node × Cursor)}

theorem perform_part (answered : visit inner atom cursor state = (recorded ended, after)) :
    perform visit inner frame (.part atom cursor onMatch onFailure) state =
      perform visit inner frame (onward onMatch onFailure ended) after := by
  rw [perform, answered]
  rcases ended with _ | ⟨node, stop⟩ <;> rfl

/-- In a performance that finishes, every part does. -/
theorem part_of_finished
    (finished : (perform visit inner frame (.part atom cursor onMatch onFailure) state).1 =
      recorded entry) : ∃ ended after, visit inner atom cursor state = (recorded ended, after) := by
  rw [perform] at finished
  generalize visit inner atom cursor state = answer at finished ⊢
  obtain ⟨outcome, after⟩ := answer
  cases outcome with
  | matched node stop => exact ⟨some (node, stop), after, rfl⟩
  | failed => exact ⟨none, after, rfl⟩
  | aborted error => exact absurd finished.symm (recorded_ne_aborted entry error)

/-- What is left behind a part goes on along the meaning of the grammar. -/
theorem along_onward {grammar : Grammar} {tries : Nat → Cursor → Prop} {arena : Arena}
    (along : (Script.part atom cursor onMatch onFailure).Along grammar tries)
    (shown : Shows arena (recorded ended) (grammar.eval atom cursor)) :
    (onward onMatch onFailure ended).Along grammar tries := by
  obtain ⟨_, matched, failed⟩ := along
  generalize meaning : grammar.eval atom cursor = outcome at shown
  rcases ended with _ | ⟨node, stop⟩
  · cases shown
    exact failed meaning
  · cases shown
    exact matched _ stop meaning node

end Parts

/-! ## What is evaluated -/

/-- Between two states some pairs of an atom and an offset were evaluated. No pair was evaluated
twice, and exactly these entered the memo. -/
structure Evaluates (parser : Parser) (state after : ParserState) (pairs : List (Nat × Nat)) :
    Prop where
  trail : after.trail = pairs ++ state.trail
  once : after.trail.Nodup
  memo : ∀ key, key ∈ after.memo ↔ key ∈ state.memo ∨ key ∈ pairs
  size : after.memo.size = state.memo.size + pairs.length
  bounds : ∀ pair ∈ pairs,
    pair.1 < parser.grammar.atoms.size ∧ pair.2 ≤ Text.byteLength parser.input

namespace Evaluates

variable {parser : Parser} {state middle after : ParserState} {pairs : List (Nat × Nat)}

/-- Nothing is evaluated between states with the same trail and memo. -/
theorem none_of_eq (once : state.trail.Nodup) (trail : after.trail = state.trail)
    (memo : after.memo = state.memo) : parser.Evaluates state after [] :=
  ⟨trail, trail ▸ once, by simp [memo], by simp [memo], by simp⟩

theorem trans {more : List (Nat × Nat)} (first : parser.Evaluates state middle pairs)
    (second : parser.Evaluates middle after more) :
    parser.Evaluates state after (more ++ pairs) where
  trail := by rw [second.trail, first.trail, append_assoc]
  once := second.once
  memo := by
    intro key
    rw [second.memo, first.memo, mem_append, or_assoc, or_comm (a := key ∈ pairs)]
  size := by
    rw [second.size, first.size, length_append]
    omega
  bounds := by
    intro pair member
    rcases mem_append.mp member with later | earlier
    · exact second.bounds pair later
    · exact first.bounds pair earlier

/-- What is evaluated depends on nothing but the trail and the memo. -/
theorem congr {state' after' : ParserState} (evaluates : parser.Evaluates state after pairs)
    (trail : state'.trail = state.trail) (memo : state'.memo = state.memo)
    (trail' : after'.trail = after.trail) (memo' : after'.memo = after.memo) :
    parser.Evaluates state' after' pairs := by
  constructor
  · rw [trail', trail, evaluates.trail]
  · rw [trail']
    exact evaluates.once
  · rw [memo', memo]
    exact evaluates.memo
  · rw [memo', memo, evaluates.size]
  · exact evaluates.bounds

variable {atom : Nat} {cursor : Cursor}

section Evaluates

variable (evaluates : parser.Evaluates (noted atom cursor state) after pairs)
  (missing : (atom, cursor.offset) ∉ state.memo)

include evaluates missing

/-- An evaluation that is noted first does not put its own pair in the memo before it ends. -/
theorem not_mem_memo : (atom, cursor.offset) ∉ after.memo := by
  have once := evaluates.once
  rw [evaluates.trail] at once
  have apart := (nodup_middle.mp once).notMem
  intro member
  rcases (evaluates.memo _).mp member with known | new
  · exact missing known
  · exact apart (mem_append_left _ new)

/-- An evaluation is noted, and then its outcome is put in the memo. -/
theorem insert (present : atom < parser.grammar.atoms.size)
    (inside : cursor.In parser.input) (entry : Option (Node × Cursor)) :
    parser.Evaluates state { after with memo := after.memo.insert (atom, cursor.offset) entry }
      (pairs ++ [(atom, cursor.offset)]) where
  trail := by rw [evaluates.trail, append_assoc]; rfl
  once := evaluates.once
  memo := by
    intro key
    rw [Std.HashMap.mem_insert, evaluates.memo, mem_append, mem_singleton, beq_iff_eq]
    have same : key ∈ (noted atom cursor state).memo ↔ key ∈ state.memo := Iff.rfl
    rw [same, eq_comm]
    tauto
  size := by
    have new := evaluates.not_mem_memo missing
    have same : (noted atom cursor state).memo.size = state.memo.size := rfl
    rw [Std.HashMap.size_insert, if_neg new, evaluates.size, length_append, same]
    rfl
  bounds := by
    intro pair member
    rcases mem_append.mp member with inner | own
    · exact evaluates.bounds pair inner
    · obtain rfl := mem_singleton.mp own
      have limit := inside.offset_le
      exact ⟨present, by omega⟩

end Evaluates

end Evaluates

/-! ## States in which an evaluation can begin -/

/-- No pair was evaluated twice so far, and what is still being evaluated does not settle within a
depth. -/
structure Ready (parser : Parser) (fuel : Nat) (state : ParserState) : Prop where
  sound : parser.Sound state
  once : state.trail.Nodup
  pending : ∀ {atom : Nat} {cursor : Cursor}, cursor.In parser.input →
    (atom, cursor.offset) ∈ state.trail → (atom, cursor.offset) ∉ state.memo →
    ¬ parser.grammar.SettlesWithin fuel atom cursor

namespace Ready

variable {parser : Parser} {fuel : Nat} {state after : ParserState}

theorem of_le {less : Nat} (ready : parser.Ready fuel state) (fewer : less ≤ fuel) :
    parser.Ready less state :=
  ⟨ready.sound, ready.once, fun inside begun missing settles =>
    ready.pending inside begun missing (settles.mono fewer)⟩

theorem congr (ready : parser.Ready fuel state) (trail : after.trail = state.trail)
    (memo : after.memo = state.memo) (arena : after.arena = state.arena) :
    parser.Ready fuel after := by
  refine ⟨ready.sound.congr memo (arena ▸ .refl _), trail ▸ ready.once, ?_⟩
  intro atom cursor inside begun missing
  rw [trail] at begun
  rw [memo] at missing
  exact ready.pending inside begun missing

/-- Whatever was evaluated in between is finished. -/
theorem forward {pairs : List (Nat × Nat)} (ready : parser.Ready fuel state)
    (evaluates : parser.Evaluates state after pairs) (sound : parser.Sound after) :
    parser.Ready fuel after := by
  refine ⟨sound, evaluates.once, fun {atom cursor} inside begun missing => ?_⟩
  rw [evaluates.memo, not_or] at missing
  rw [evaluates.trail, mem_append] at begun
  exact ready.pending inside (begun.resolve_left missing.2) missing.1

/-- An evaluation that settles within one level more, and no sooner, begins. -/
theorem note (ready : parser.Ready (fuel + 1) state) (inside : cursor.In parser.input)
    (missing : (atom, cursor.offset) ∉ state.memo)
    (settles : parser.grammar.SettlesWithin (fuel + 1) atom cursor)
    (later : ¬ parser.grammar.SettlesWithin fuel atom cursor) :
    parser.Ready fuel (noted atom cursor state) := by
  refine ⟨ready.sound.congr rfl (.refl _), ?_, fun {atom' cursor'} inside' begun missing' => ?_⟩
  · exact nodup_cons.mpr
      ⟨fun begun => ready.pending inside begun missing settles, ready.once⟩
  · rcases mem_cons.mp begun with same | earlier
    · obtain ⟨rfl, offset⟩ := Prod.mk.inj same
      obtain rfl := inside'.eq_of_offset_eq inside offset
      exact later
    · exact (ready.of_le (Nat.le_succ fuel)).pending inside' earlier missing'

end Ready

/-! ## Visits -/

/-- A visit that a parser makes of an atom at a place. -/
structure Visit where
  fuel : Nat
  frame : Frame
  atom : Nat
  cursor : Cursor
  state : ParserState

def answer (parser : Parser) (visit : Visit) : Answer :=
  parser.visit visit.fuel visit.frame visit.atom visit.cursor visit.state

/-- A visit finishes that begins in a state in which what settles within a depth can begin. -/
structure Proceeds (parser : Parser) (depth : Nat) (visit : Visit) : Prop where
  inside : visit.cursor.In parser.input
  ready : parser.Ready depth visit.state
  settles : parser.grammar.SettlesWithin depth visit.atom visit.cursor
  finishes : ∃ entry, (parser.answer visit).1 = recorded entry

/-- A visit that proceeds evaluates no pair twice. -/
def EvaluatesOnce (parser : Parser) (depth : Nat) : Prop :=
  ∀ visit, parser.Proceeds depth visit →
    ∃ pairs, parser.Evaluates visit.state (parser.answer visit).2 pairs

theorem not_mem_of_getElem? {key : Nat × Nat} (missing : state.memo[key]? = none) :
    key ∉ state.memo := by
  rw [Std.HashMap.mem_iff_isSome_getElem?, missing]
  exact Bool.false_ne_true

variable {fuel : Nat}

/-- A visit that finds nothing in the memo begins an attempt. Its parts settle within some depth,
and the visit itself does not. -/
theorem Proceeds.begins (proceeds : parser.Proceeds depth ⟨fuel + 1, frame, atom, cursor, state⟩)
    (missing : state.memo[(atom, cursor.offset)]? = none) :
    ∃ less < depth, parser.Ready less (noted atom cursor state) ∧
      parser.grammar.SettlesWithin (less + 1) atom cursor ∧
      ∃ entry, (parser.attempt (parser.visit fuel) frame atom cursor
        (noted atom cursor state)).1 = recorded entry := by
  obtain ⟨inside, ready, settles, entry, finished⟩ := proceeds
  obtain ⟨less, fewer, least, later⟩ := settles.exists_least
  refine ⟨less, fewer, ?_, least, entry, ?_⟩
  · exact (ready.of_le fewer).note inside (not_mem_of_getElem? missing) least later
  · rw [answer, visit_of_miss fuel frame missing, remember_fst] at finished
    exact finished

theorem trail_finish (frame : Frame) (ending : Ending Node) (state : ParserState) :
    (finish frame ending state).2.trail = state.trail := by
  cases ending with
  | missed cursor what =>
    simp only [finish, expect]
    split <;> rfl
  | _ => rfl

section Performing

variable {parser : Parser} {depth fuel : Nat} (sub : parser.EvaluatesOnce depth)
  {inner frame : Frame}

include sub

/-- A part that finishes leaves a state in which the next one can begin. -/
theorem ready_part {after : ParserState} {ended : Option (Node × Cursor)}
    (ready : parser.Ready depth state)
    (tried : parser.grammar.SettlesWithin depth atom cursor ∧ cursor.In parser.input)
    (answered : parser.visit fuel inner atom cursor state = (recorded ended, after)) :
    (∃ pairs, parser.Evaluates state after pairs) ∧ parser.Ready depth after ∧
      Shows after.arena (recorded ended) (parser.grammar.eval atom cursor) := by
  obtain ⟨settles, inside⟩ := tried
  have faithful := faithful_visit parser (Nat.le_refl fuel) 0 inner {} atom inside ready.sound
  have evaluated := sub ⟨fuel, inner, atom, cursor, state⟩
    ⟨inside, ready, settles, ended, congrArg Prod.fst answered⟩
  rw [answer, answered] at evaluated
  rw [answered] at faithful
  obtain ⟨pairs, evaluates⟩ := evaluated
  exact ⟨⟨pairs, evaluates⟩, ready.forward evaluates faithful.sound,
    faithful.shows (isSettled_recorded ended)⟩

/-- A performance that finishes evaluates no pair twice. -/
theorem evaluates_perform {script : Script Node}
    (along : script.Along parser.grammar (fun part place =>
      parser.grammar.SettlesWithin depth part place ∧ place.In parser.input))
    (ready : parser.Ready depth state)
    (finished : (perform (parser.visit fuel) inner frame script state).1 = recorded entry) :
    ∃ pairs, parser.Evaluates state
      (perform (parser.visit fuel) inner frame script state).2 pairs := by
  induction script generalizing state with
  | done ending =>
    exact ⟨[], .none_of_eq ready.once (trail_finish frame ending state)
      (memo_finish frame ending state)⟩
  | part atom cursor onMatch onFailure matched failed =>
    obtain ⟨ended, after, answered⟩ := part_of_finished finished
    obtain ⟨⟨pairs, first⟩, later, shown⟩ := ready_part sub ready along.1 answered
    have rest := along_onward along shown
    rw [perform_part answered] at finished ⊢
    obtain ⟨others, second⟩ : ∃ others, parser.Evaluates after (perform (parser.visit fuel) inner
        frame (onward onMatch onFailure ended) after).2 others := by
      rcases ended with _ | ⟨node, stop⟩
      · exact failed rest later finished
      · exact matched node stop rest later finished
    exact ⟨others ++ pairs, first.trans second⟩

end Performing

/-- An attempt that finishes performs the script of its atom. -/
theorem attempt_of_finished {visit : Visitor} {index : Nat}
    (finished : (parser.attempt visit frame index cursor state).1 = recorded entry) :
    ∃ atom, parser.grammar.atoms[index]? = some atom ∧
      parser.attempt visit frame index cursor state =
        lower atom.levels (perform visit (frame.inside parser.grammar atom) frame
          (.ofAtom parser.grammar cursor atom) (raise atom.levels state)) := by
  cases found : parser.grammar.atoms[index]? with
  | none =>
    rw [attempt, found] at finished
    exact absurd finished.symm (recorded_ne_aborted entry _)
  | some atom =>
    refine ⟨atom, rfl, ?_⟩
    have same := attempt_eq parser visit frame cursor state found
    split at same
    · rw [same] at finished
      exact absurd finished.symm (recorded_ne_aborted entry _)
    · exact same

/-- An attempt that finishes evaluates no pair twice. -/
theorem evaluates_attempt (sub : parser.EvaluatesOnce depth) {index : Nat}
    (inside : cursor.In parser.input) (ready : parser.Ready depth state)
    (settles : parser.grammar.SettlesWithin (depth + 1) index cursor)
    (finished : (parser.attempt (parser.visit fuel) frame index cursor state).1 = recorded entry) :
    ∃ pairs, parser.Evaluates state
      (parser.attempt (parser.visit fuel) frame index cursor state).2 pairs := by
  obtain ⟨atom, found, same⟩ := attempt_of_finished finished
  have raised : parser.Ready depth (raise atom.levels state) := ready.congr rfl rfl rfl
  rw [same] at finished ⊢
  obtain ⟨pairs, evaluates⟩ :=
    evaluates_perform sub (settles.parts found inside) raised finished
  exact ⟨pairs, evaluates.congr rfl rfl rfl rfl⟩

theorem evaluates_visit (parser : Parser) (depth : Nat) : parser.EvaluatesOnce depth := by
  induction depth using Nat.strongRecOn with
  | ind depth ih =>
    rintro ⟨fuel, frame, atom, cursor, state⟩ proceeds
    obtain ⟨entry, finished⟩ := proceeds.finishes
    cases fuel with
    | zero => exact absurd finished.symm (recorded_ne_aborted entry _)
    | succ fuel =>
      cases known : state.memo[(atom, cursor.offset)]? with
      | some found =>
        rw [answer, visit_of_hit fuel frame known]
        exact ⟨[], .none_of_eq proceeds.ready.once rfl rfl⟩
      | none =>
        obtain ⟨less, fewer, ready, settles, entry, finished⟩ := proceeds.begins known
        obtain ⟨pairs, evaluates⟩ :=
          evaluates_attempt (ih less fewer) proceeds.inside ready settles finished
        have present : atom < parser.grammar.atoms.size := by
          obtain ⟨_, found, _⟩ := attempt_of_finished finished
          exact (Array.getElem?_eq_some_iff.mp found).1
        have inserted :=
          evaluates.insert (not_mem_of_getElem? known) present proceeds.inside
        rw [answer, visit_of_miss fuel frame known]
        generalize parser.attempt _ _ _ _ _ = answer at finished inserted ⊢
        obtain ⟨outcome, after⟩ := answer
        cases outcome with
        | matched node stop => exact ⟨_, inserted (some (node, stop))⟩
        | failed => exact ⟨_, inserted none⟩
        | aborted error => exact absurd finished.symm (recorded_ne_aborted entry error)

/-! ## Visits within visits -/

/-- The performance of a script in a state comes to a part in another state. -/
inductive Reaches (visit : Visitor) (inner : Frame) (part : Nat) (place : Cursor)
    (reached : ParserState) : Script Node → ParserState → Prop where
  | here {onMatch : Node → Cursor → Script Node} {onFailure : Script Node} :
      Reaches visit inner part place reached (.part part place onMatch onFailure) reached
  | later {atom : Nat} {cursor : Cursor} {onMatch : Node → Cursor → Script Node}
      {onFailure : Script Node} {state after : ParserState} {ended : Option (Node × Cursor)}
      (answered : visit inner atom cursor state = (recorded ended, after))
      (rest : Reaches visit inner part place reached (onward onMatch onFailure ended) after) :
      Reaches visit inner part place reached (.part atom cursor onMatch onFailure) state

/-- The visits that are made in the course of a visit. -/
inductive Makes (parser : Parser) (whole : Visit) : Visit → Prop where
  | whole : Makes parser whole whole
  | part {fuel index : Nat} {frame : Frame} {cursor : Cursor} {state : ParserState} {atom : Atom}
      {part : Nat} {place : Cursor} {reached : ParserState}
      (made : Makes parser whole ⟨fuel + 1, frame, index, cursor, state⟩)
      (missing : state.memo[(index, cursor.offset)]? = none)
      (found : parser.grammar.atoms[index]? = some atom)
      (entered : (0 < atom.levels &&
        parser.limits.refusesDepth (state.depth + atom.levels)) = false)
      (reaches : Reaches (parser.visit fuel) (frame.inside parser.grammar atom) part place reached
        (.ofAtom parser.grammar cursor atom) (raise atom.levels (noted index cursor state))) :
      Makes parser whole ⟨fuel, frame.inside parser.grammar atom, part, place, reached⟩

/-- Every part that a performance comes to proceeds, if the performance finishes. -/
theorem Reaches.proceeds {inner : Frame} {part : Nat} {place : Cursor} {reached : ParserState}
    {script : Script Node}
    (reaches : Reaches (parser.visit fuel) inner part place reached script state)
    (along : script.Along parser.grammar (fun part place =>
      parser.grammar.SettlesWithin depth part place ∧ place.In parser.input))
    (ready : parser.Ready depth state)
    (finished : (perform (parser.visit fuel) inner frame script state).1 = recorded entry) :
    parser.Proceeds depth ⟨fuel, inner, part, place, reached⟩ := by
  induction reaches with
  | here =>
    obtain ⟨ended, after, answered⟩ := part_of_finished finished
    exact ⟨along.1.2, ready, along.1.1, ended, congrArg Prod.fst answered⟩
  | later answered rest ih =>
    obtain ⟨_, later, shown⟩ := ready_part (evaluates_visit parser depth) ready along.1 answered
    rw [perform_part answered] at finished
    exact ih (along_onward along shown) later finished

/-- Every visit that is made in the course of one that proceeds does so too. -/
theorem Makes.proceeds {whole visit : Visit} (makes : parser.Makes whole visit)
    (start : parser.Proceeds depth whole) : ∃ depth, parser.Proceeds depth visit := by
  induction makes with
  | whole => exact ⟨depth, start⟩
  | @part fuel index frame cursor state atom part place reached made missing found _ reaches ih =>
    obtain ⟨_, proceeds⟩ := ih
    obtain ⟨less, _, ready, settles, entry, finished⟩ := proceeds.begins missing
    obtain ⟨sameAtom, sameFound, same⟩ := attempt_of_finished finished
    obtain rfl : sameAtom = atom := Option.some.inj (sameFound.symm.trans found)
    have raised : parser.Ready less (raise sameAtom.levels (noted index cursor state)) :=
      ready.congr rfl rfl rfl
    rw [same] at finished
    exact ⟨less, reaches.proceeds (settles.parts found proceeds.inside) raised finished⟩

/-- When an evaluation in the course of a visit that proceeds is finished, the memo has no entry for
it yet. -/
theorem Makes.not_mem_memo {whole : Visit}
    (makes : parser.Makes whole ⟨fuel + 1, frame, atom, cursor, state⟩)
    (start : parser.Proceeds depth whole) (missing : state.memo[(atom, cursor.offset)]? = none)
    {context : List String} {silent : Nat}
    (shows : ParserState.frame { state with context, silent } = frame) :
    (atom, cursor.offset) ∉ (parser.matchAtom (parser.tryAtom fuel) atom cursor
      (noted atom cursor { state with context, silent })).2.memo := by
  obtain ⟨_, proceeds⟩ := makes.proceeds start
  obtain ⟨less, _, ready, settles, entry, finished⟩ := proceeds.begins missing
  obtain ⟨pairs, evaluates⟩ :=
    evaluates_attempt (evaluates_visit parser less) proceeds.inside ready settles finished
  have stackless := stackless_visit parser fuel
  have shown : (noted atom cursor { state with context, silent }).frame = frame := shows
  have same := (matchAtom_eq stackless (tryAtom_eq parser fuel) parser atom cursor
    (noted atom cursor { state with context, silent })).trans
    (stackless.attempt parser context silent _ atom cursor (noted atom cursor state))
  rw [same, shown]
  exact evaluates.not_mem_memo (not_mem_of_getElem? missing)

/-! ## Parses -/

def rootVisit (parser : Parser) (state : ParserState) : Visit :=
  ⟨parser.fuel, parser.rootFrame state.frame, parser.grammar.root, ⟨0, parser.input⟩, state⟩

/-- Whether a parse ended with a match, or because the grammar does not match. -/
def isDecided : Except ParseError (Node × Cursor) → Bool
  | .ok _ | .error (.unmatched _ _) => true
  | .error _ => false

/-- Behind a parse that decided is a visit of the root that finished. -/
theorem answer_of_decided (decided : isDecided (parser.parseFront state).1) :
    (parser.parseFront state).2 = (parser.answer (parser.rootVisit state)).2 ∧
      ∃ entry, (parser.answer (parser.rootVisit state)).1 = recorded entry := by
  have never := parser.visit_ne_unmatched parser.fuel (parser.rootFrame state.frame)
    parser.grammar.root ⟨0, parser.input⟩ state
  rw [parseFront_eq] at decided ⊢
  split
  · next large =>
    rw [if_pos large] at decided
    cases decided
  · next small =>
    rw [if_neg small] at decided
    rw [concluded_snd]
    refine ⟨rfl, ?_⟩
    rw [answer, rootVisit]
    generalize parser.visit _ _ _ _ _ = answer at decided never ⊢
    obtain ⟨outcome, after⟩ := answer
    cases outcome with
    | matched node stop => exact ⟨some (node, stop), rfl⟩
    | failed => exact ⟨none, rfl⟩
    | aborted error =>
      cases error with
      | unmatched position expected => exact absurd rfl (never position expected)
      | _ => cases decided

/-- A list of pairs within bounds that holds none twice is no longer than the product of these. -/
theorem length_le_of_bounds {pairs : List (Nat × Nat)} (once : pairs.Nodup) {first second : Nat}
    (bounds : ∀ pair ∈ pairs, pair.1 < first ∧ pair.2 ≤ second) :
    pairs.length ≤ first * (second + 1) := by
  have inside : pairs ⊆ List.range first ×ˢ List.range (second + 1) := by
    intro pair member
    obtain ⟨left, right⟩ := bounds pair member
    exact mem_product.mpr ⟨mem_range.mpr left, mem_range.mpr (by omega)⟩
  have shorter := (once.subperm inside).length_le
  rw [length_product, length_range, length_range] at shorter
  exact shorter

/-- In a parse from the start that ends with a match or without one, every pair of an atom and an
offset is evaluated at most once, and the memo holds exactly the evaluated pairs: at most one for
each atom and offset. No entry of the memo is overwritten, since whenever the outcome of an
evaluation is put there, the memo has none for its pair. -/
theorem parseFront_evaluates_once (parser : Parser) (arena : Arena)
    (decided : isDecided (parser.parseFront { arena }).1) :
    let after := (parser.parseFront { arena }).2
    after.trail.Nodup ∧ (∀ pair, pair ∈ after.memo ↔ pair ∈ after.trail) ∧
      after.trail.length = after.memo.size ∧
      after.memo.size ≤ parser.grammar.atoms.size * (Text.byteLength parser.input + 1) ∧
      ∀ (fuel : Nat) (frame : Frame) (atom : Nat) (cursor : Cursor) (state : ParserState),
        parser.Makes (parser.rootVisit { arena }) ⟨fuel + 1, frame, atom, cursor, state⟩ →
        state.memo[(atom, cursor.offset)]? = none →
        ∀ context silent, ParserState.frame { state with context, silent } = frame →
          (atom, cursor.offset) ∉ (parser.matchAtom (parser.tryAtom fuel) atom cursor
            (noted atom cursor { state with context, silent })).2.memo := by
  intro after
  obtain ⟨same, entry, finished⟩ := answer_of_decided decided
  have inside := Cursor.In.start parser.input
  have sound : parser.Sound { arena } := Reachable.sound ⟨arena, .refl⟩
  have done := (congrArg Outcome.isSettled finished).trans (isSettled_recorded entry)
  obtain ⟨depth, settles⟩ := sound.exists_settled inside done 0 {}
  have ready : parser.Ready depth { arena } :=
    ⟨sound, nodup_nil, fun _ begun => absurd begun not_mem_nil⟩
  have proceeds : parser.Proceeds depth (parser.rootVisit { arena }) :=
    ⟨inside, ready, settles, entry, finished⟩
  obtain ⟨pairs, evaluates⟩ := evaluates_visit parser depth _ proceeds
  rw [← same] at evaluates
  have trail : after.trail = pairs := evaluates.trail.trans (append_nil pairs)
  have size : after.memo.size = pairs.length := by
    have counted := evaluates.size
    rwa [show (parser.rootVisit { arena }).state.memo.size = 0 from Std.HashMap.size_empty,
      Nat.zero_add] at counted
  refine ⟨evaluates.once, fun pair => ?_, ?_, ?_, ?_⟩
  · rw [evaluates.memo, trail]
    exact or_iff_right Std.HashMap.not_mem_empty
  · rw [trail, size]
  · rw [size]
    exact length_le_of_bounds (trail ▸ evaluates.once) evaluates.bounds
  · intro fuel frame atom cursor state makes missing context silent shows
    exact makes.not_mem_memo proceeds missing shows

/-- The first option of a choice fails behind a character that the second one finds in the memo. -/
theorem backtracking_evaluates_once : let after := (backtracking.parseFront {}).2
    isDecided (backtracking.parseFront {}).1 ∧ after.trail.Nodup ∧
      after.trail.length = after.memo.size ∧ after.memo.size ≤ 6 * 3 := by
  intro after
  have decided : isDecided (backtracking.parseFront {}).1 := by
    have sound : backtracking.Sound {} := Reachable.sound ⟨{}, .refl⟩
    have matched : (Plain.visit backtracking.grammar backtracking.limits 9 0 {}
        backtracking.grammar.root ⟨0, backtracking.input⟩).1 =
        .matched (.field ⟨0, 1⟩ "x" (.text ⟨0, 1⟩)) ⟨1, ['c']⟩ := rfl
    obtain ⟨node, reached, parsed, _⟩ := sound.parseFront_of_plain rfl (by decide) matched
    rw [parsed]
    rfl
  obtain ⟨once, _, counted, bounded, _⟩ := parseFront_evaluates_once backtracking {} decided
  exact ⟨decided, once, counted, bounded⟩

end Reflow.Parser
