import Reflow.Proofs.Coverage
import Reflow.Proofs.StoredTree

/-!
# The memo is transparent

A parser state is sound if every entry of its memo shows the outcome of the unbounded evaluation.
Every visit keeps that, whether it matches, fails or is aborted, and what it gives shows the outcome
of the unbounded evaluation too, unless a bound cut it short (`faithful_visit`). Where plain
evaluation at the same depth settles, no bound does so: the memo can only shorten an evaluation.
-/

namespace Reflow

open List

variable {cursor : Cursor} {trees : List Tree} {outcome : Outcome Node}
  {meaning plain : Outcome Tree} {parser : Parser} {state : ParserState}

/-! ## Spans that fit in 32-bit words -/

namespace Tree

theorem span_ofSpan {start stop : Cursor} {taken : Text} (takes : start.Takes taken stop)
    (fits : stop.offset < 2 ^ 32) : (Extent.ofSpan (start.spanTo stop)).span = start.spanTo stop := by
  have ordered : start.offset ≤ stop.offset := by have := takes.offsetEq; omega
  exact Extent.span_ofSpan ordered fits

mutual

theorem stored_of_covers : (tree : Tree) → {start stop : Cursor} → tree.Covers start stop →
    stop.offset < 2 ^ 32 → tree.stored = tree
  | nil offset, _, _, covers, fits => by
    obtain ⟨rfl, rfl⟩ := covers
    simp only [stored, Nat.toUInt32, UInt32.toNat_ofNat', Nat.mod_eq_of_lt fits]
  | text _, _, _, covers, fits => by
    obtain ⟨rfl, _, takes⟩ := covers
    rw [stored, span_ofSpan takes fits]
  | list _ items, _, _, covers, fits => by
    obtain ⟨_, takes⟩ := takes_of_covers _ covers
    obtain ⟨rfl, inner⟩ := covers
    rw [stored, span_ofSpan takes fits, storedAll_of_coversAll items inner fits]
  | field _ _ value, _, _, covers, fits => by
    obtain ⟨_, takes⟩ := takes_of_covers _ covers
    obtain ⟨rfl, inner⟩ := covers
    rw [stored, span_ofSpan takes fits, stored_of_covers value inner fits]

theorem storedAll_of_coversAll : (trees : List Tree) → {start stop : Cursor} →
    coversAll trees start stop → stop.offset < 2 ^ 32 → storedAll trees = trees
  | [], _, _, _, _ => rfl
  | first :: rest, _, _, ⟨_, front, back⟩, fits => by
    obtain ⟨_, takes⟩ := takes_of_coversAll rest back
    have order := takes.offsetEq
    rw [storedAll, stored_of_covers first front (by omega), storedAll_of_coversAll rest back fits]

end

end Tree

/-- A node stands for a tree in 32-bit words. -/
def Arena.KeepsStored (arena : Arena) (node : Node) (tree : Tree) : Prop :=
  arena.Keeps node tree.stored

theorem Arena.keepsAll_of_forall₂ {arena : Arena} {nodes : List Node}
    (each : Forall₂ arena.KeepsStored nodes trees) :
    arena.KeepsAll nodes (Tree.storedAll trees) := by
  induction each with
  | nil => exact .nil arena
  | cons first _ ih => exact .cons first ih

variable {fuel : Nat}

namespace Parser

/-! ## Sound states -/

/-- An outcome with stored nodes shows one with trees. -/
inductive Shows (arena : Arena) : Outcome Node → Outcome Tree → Prop where
  | matched {node : Node} {tree : Tree} {stop : Cursor} (kept : arena.Keeps node tree.stored) :
      Shows arena (.matched node stop) (.matched tree stop)
  | failed : Shows arena .failed .failed
  | aborted (error : ParseError) : Shows arena (.aborted error) (.aborted error)

theorem Shows.grow {earlier later : Arena} (shown : Shows earlier outcome meaning)
    (grows : earlier.Grows later) : Shows later outcome meaning := by
  cases shown with
  | matched kept => exact .matched (kept.grow grows)
  | failed => exact .failed
  | aborted error => exact .aborted error

theorem Shows.isSettled_eq {arena : Arena} (shown : Shows arena outcome meaning) :
    meaning.isSettled = outcome.isSettled := by
  cases shown <;> rfl

/-- The outcome that an entry of the memo stands for. -/
def recorded : Option (Node × Cursor) → Outcome Node
  | some (node, stop) => .matched node stop
  | none => .failed

/-- Every entry of the memo shows what its atom means at its place. -/
structure Sound (parser : Parser) (state : ParserState) : Prop where
  shows : ∀ {atom : Nat} {cursor : Cursor} {entry : Option (Node × Cursor)},
    cursor.In parser.input → state.memo[(atom, cursor.offset)]? = some entry →
    Shows state.arena (recorded entry) (parser.grammar.eval atom cursor)

theorem Sound.congr {after : ParserState} (sound : parser.Sound state)
    (memo : after.memo = state.memo) (grows : state.arena.Grows after.arena) :
    parser.Sound after where
  shows := by
    intro atom cursor entry inside found
    rw [memo] at found
    exact (sound.shows inside found).grow grows

/-- What a step gives is faithful to an outcome without bounds and to one with bounds at some depth:
it keeps the state sound, it shows the first outcome unless it was cut short, and it is not cut
short if it starts at that depth and the second outcome is not. -/
structure Faithful (parser : Parser) (depth : Nat) (state : ParserState)
    (answer : Answer) (meaning plain : Outcome Tree) : Prop where
  sound : parser.Sound answer.2
  grows : state.arena.Grows answer.2.arena
  shows : answer.1.isSettled → Shows answer.2.arena answer.1 meaning
  completes : state.depth = depth → plain.isSettled →
    answer.1.isSettled ∧ answer.2.depth = depth

variable {answer : Answer}

namespace Faithful

variable {parser : Parser} {depth : Nat} {state after : ParserState} {meaning plain : Outcome Tree}

theorem stay (sound : parser.Sound state) (shown : Shows state.arena outcome meaning)
    (settled : outcome.isSettled) :
    parser.Faithful depth state (outcome, state) meaning plain :=
  ⟨sound, .refl _, fun _ => shown, fun same _ => ⟨settled, same⟩⟩

/-- Being faithful depends on the outcomes only where they are settled. -/
theorem of_approx {meaning' plain' : Outcome Tree}
    (faithful : parser.Faithful depth state answer meaning plain) (approx : meaning.Approx meaning')
    (settles : plain'.isSettled → plain.isSettled) :
    parser.Faithful depth state answer meaning' plain' where
  sound := faithful.sound
  grows := faithful.grows
  shows := by
    intro settled
    have shown := faithful.shows settled
    rw [approx (shown.isSettled_eq.trans settled)]
    exact shown
  completes := fun same settled => faithful.completes same (settles settled)

variable {next next' : Tree → Cursor → Outcome Tree} {otherwise otherwise' : Outcome Tree}

theorem afterMatch {node : Node} {stop : Cursor}
    (first : parser.Faithful depth state (.matched node stop, after) meaning plain)
    (approx : plain.Approx meaning)
    (rest : ∀ tree, meaning = .matched tree stop → after.arena.Keeps node tree.stored →
      parser.Faithful depth after answer (next tree stop) (next' tree stop)) :
    parser.Faithful depth state answer (meaning.resume next otherwise)
      (plain.resume next' otherwise') := by
  cases first.shows rfl with
  | @matched _ tree _ kept =>
    have later := rest tree rfl kept
    refine ⟨later.sound, first.grows.trans later.grows, later.shows, ?_⟩
    intro same settled
    have settled' := Outcome.isSettled_of_resume settled
    rw [← approx settled'] at settled
    exact later.completes (first.completes same settled').2 settled

theorem afterFailure (first : parser.Faithful depth state (.failed, after) meaning plain)
    (approx : plain.Approx meaning)
    (rest : parser.Faithful depth after answer otherwise otherwise') :
    parser.Faithful depth state answer (meaning.resume next otherwise)
      (plain.resume next' otherwise') := by
  cases first.shows rfl with
  | failed =>
    refine ⟨rest.sound, first.grows.trans rest.grows, rest.shows, ?_⟩
    intro same settled
    have settled' := Outcome.isSettled_of_resume settled
    rw [← approx settled'] at settled
    exact rest.completes (first.completes same settled').2 settled

theorem afterAbort {error : ParseError}
    (first : parser.Faithful depth state (.aborted error, after) meaning plain) :
    parser.Faithful depth state (.aborted error, after) (meaning.resume next otherwise)
      (plain.resume next' otherwise') := by
  refine ⟨first.sound, first.grows, ?_, ?_⟩
  · intro settled
    cases first.shows settled with
    | aborted error => exact .aborted error
  · intro same settled
    exact first.completes same (Outcome.isSettled_of_resume settled)

end Faithful

/-! ## Steps -/

section Steps

variable {parser : Parser} {depth : Nat}

theorem sound_expect (frame : Frame) (cursor : Cursor) (what : String)
    (sound : parser.Sound state) : parser.Sound (expect frame cursor what state) := by
  unfold expect
  split
  · exact sound
  · exact sound.congr rfl (.refl _)

theorem faithful_failed (frame : Frame) (cursor : Cursor) (what : String)
    (sound : parser.Sound state) :
    parser.Faithful depth state (.failed, expect frame cursor what state) .failed plain := by
  have arena : (expect frame cursor what state).arena = state.arena := by
    unfold expect
    split <;> rfl
  have level : (expect frame cursor what state).depth = state.depth := by
    unfold expect
    split <;> rfl
  refine ⟨sound_expect frame cursor what sound, ?_, fun _ => .failed, fun same _ => ⟨rfl, ?_⟩⟩
  · rw [arena]
    exact .refl _
  · exact level.trans same

/-- Storing a list of what was matched so far. -/
theorem faithful_storeList {nodes : List Node} (start stop : Cursor) (sound : parser.Sound state)
    (each : Forall₂ state.arena.KeepsStored nodes trees) :
    parser.Faithful depth state (storeList start stop nodes state)
      (Plain.listTree start stop trees).1 plain := by
  have kept := Arena.keepsAll_of_forall₂ each
  have grows := state.arena.grows_pushList nodes.reverse (start.spanTo stop)
  have stored := Arena.keeps_pushList (start.spanTo stop) kept.reverse
  rw [Tree.storedAll_eq_map, ← map_reverse, ← Tree.storedAll_eq_map] at stored
  exact ⟨sound.congr rfl grows, grows, fun _ => .matched stored, fun same _ => ⟨rfl, same⟩⟩

theorem faithful_finish (frame frame' : Frame) {ending : Ending Node} {ending' : Ending Tree}
    (related : ending.Related state.arena.KeepsStored ending') (sound : parser.Sound state) :
    parser.Faithful depth state (finish frame ending state) (Plain.finish frame' ending').1
      plain := by
  cases related with
  | text start stop => exact .stay sound (.matched (.text _ _)) rfl
  | nil cursor => exact .stay sound (.matched (.nil _ _)) rfl
  | list start stop each => exact faithful_storeList start stop sound each
  | @field label start stop node _ kept =>
    have grows := state.arena.grows_pushField label node (start.spanTo stop)
    exact ⟨sound.congr rfl grows, grows, fun _ => .matched (Arena.keeps_pushField label _ kept),
      fun same _ => ⟨rfl, same⟩⟩
  | same stop kept => exact .stay sound (.matched kept) rfl
  | failed => exact .stay sound .failed rfl
  | missed cursor what => exact faithful_failed frame cursor what sound
  | malformed pattern => exact .stay sound (.aborted _) rfl

variable {visit : Visitor} {plain : Plain.Visitor}
    (approx : ∀ depth frame atom cursor,
      (plain depth frame atom cursor).1.Approx (parser.grammar.eval atom cursor))
    (sub : ∀ depth frame frame' atom {cursor : Cursor} {state : ParserState},
      cursor.In parser.input → parser.Sound state →
      parser.Faithful depth state (visit frame atom cursor state)
        (parser.grammar.eval atom cursor) (plain depth frame' atom cursor).1)

include approx sub

/-- A script is performed faithfully if its parts are matched faithfully. -/
theorem faithful_perform (inner inner' frame frame' : Frame) {now : Arena} {script : Script Node}
    {script' : Script Tree} (related : Script.Related Arena.Grows Arena.KeepsStored now script script')
    (here : state.arena = now) {parts : List Nat} {faults : String → Prop}
    (all : script.All (fun part place => part ∈ parts ∧ place.In parser.input) (·.In parser.input)
      faults) (sound : parser.Sound state) :
    parser.Faithful depth state (perform visit inner frame script state)
      (Plain.perform (parser.grammar.evalVisitor depth inner') frame' script').1
      (Plain.perform (plain depth inner') frame' script').1 := by
  induction related generalizing state with
  | done related =>
    subst here
    exact faithful_finish frame frame' related sound
  | @part now atom cursor onMatch onFailure onMatch' onFailure' _ _ matched failed =>
    subst here
    obtain ⟨⟨_, inside⟩, onward, otherwise⟩ := all
    have first := sub depth inner inner' atom inside sound
    rw [perform, Plain.perform_part_outcome, Plain.perform_part_outcome]
    generalize visit inner atom cursor state = answer at first ⊢
    obtain ⟨outcome, after⟩ := answer
    cases outcome with
    | matched node stop =>
      refine first.afterMatch (approx _ _ _ _) fun tree found kept => ?_
      obtain ⟨_, taken⟩ := Tree.takes_of_covers tree
        (parser.grammar.eval_covers atom cursor tree stop found)
      exact matched stop first.grows kept rfl (onward node stop (inside.after taken)) first.sound
    | failed =>
      exact first.afterFailure (approx _ _ _ _) (failed first.grows rfl otherwise first.sound)
    | aborted error => exact first.afterAbort

/-- An atom is matched faithfully if its parts are. -/
theorem faithful_attempt (frame frame' : Frame) (atom : Nat) (inside : cursor.In parser.input)
    (sound : parser.Sound state) :
    parser.Faithful depth state (parser.attempt visit frame atom cursor state)
      (Plain.attempt parser.grammar .unlimited parser.grammar.evalVisitor depth frame' atom
        cursor).1
      (Plain.attempt parser.grammar parser.limits plain depth frame' atom cursor).1 := by
  cases found : parser.grammar.atoms[atom]? with
  | none =>
    rw [attempt, Plain.attempt, Plain.attempt, found]
    exact .stay sound (.aborted _) rfl
  | some part =>
    have raised : parser.Sound (raise part.levels state) := sound.congr rfl (.refl _)
    have first : parser.Faithful (depth + part.levels) (raise part.levels state) _ _ _ :=
      faithful_perform approx sub (frame.inside parser.grammar part)
        (frame'.inside parser.grammar part) frame frame' (Script.related_ofAtom
          (fun _ _ _ _ grows kept => kept.grow grows) parser.grammar cursor part) rfl
        (Script.all_ofAtom parser.grammar part inside) raised
    rw [attempt_eq parser visit frame cursor state found,
      Plain.attempt_unlimited _ depth frame' cursor found,
      Plain.attempt_eq parser.limits plain depth frame' cursor found]
    split
    · next refused =>
      refine ⟨raised, .refl _, fun settled => (by cases settled), ?_⟩
      rintro rfl settled
      rw [if_pos refused] at settled
      cases settled
    · next allowed =>
      refine ⟨first.sound.congr rfl (.refl _), first.grows, first.shows, ?_⟩
      rintro rfl settled
      rw [if_neg allowed] at settled
      obtain ⟨done, level⟩ := first.completes rfl settled
      exact ⟨done, by simp [lower, level]⟩

/-- An atom that is not in the memo is noted and matched. -/
theorem faithful_attempted (depth : Nat) (frame frame' : Frame) (atom : Nat)
    (inside : cursor.In parser.input) (sound : parser.Sound state) :
    parser.Faithful depth state
      (parser.attempt visit frame atom cursor
        { state with trail := (atom, cursor.offset) :: state.trail })
      (parser.grammar.eval atom cursor)
      (Plain.attempt parser.grammar parser.limits plain depth frame' atom cursor).1 := by
  have noted : parser.Sound { state with trail := (atom, cursor.offset) :: state.trail } :=
    sound.congr rfl (.refl _)
  have meant := (faithful_attempt approx sub frame frame' atom inside noted).of_approx
    (parser.grammar.attempt_approx_eval depth frame' atom cursor) id
  exact ⟨meant.sound, meant.grows, meant.shows, meant.completes⟩

end Steps

/-! ## Visits -/

theorem sound_insert {atom : Nat} {entry : Option (Node × Cursor)} (sound : parser.Sound state)
    (inside : cursor.In parser.input)
    (shown : Shows state.arena (recorded entry) (parser.grammar.eval atom cursor)) :
    parser.Sound { state with memo := state.memo.insert (atom, cursor.offset) entry } where
  shows := by
    intro atom' cursor' entry' inside' found
    simp only [Std.HashMap.getElem?_insert] at found
    split at found
    · next same =>
      simp only [beq_iff_eq, Prod.mk.injEq] at same
      obtain ⟨rfl, offset⟩ := same
      obtain rfl := inside.eq_of_offset_eq inside' offset
      cases found
      exact shown
    · exact sound.shows inside' found

theorem faithful_remember {depth : Nat} {atom : Nat} (inside : cursor.In parser.input)
    (faithful : parser.Faithful depth state answer (parser.grammar.eval atom cursor) plain) :
    parser.Faithful depth state (remember atom cursor answer) (parser.grammar.eval atom cursor)
      plain := by
  obtain ⟨outcome, after⟩ := answer
  cases outcome with
  | matched _ _ | failed =>
    have shown := faithful.shows rfl
    exact ⟨sound_insert faithful.sound inside shown, faithful.grows, fun _ => shown,
      faithful.completes⟩
  | aborted error => exact faithful

/-- Every visit of a sound state is faithful to the unbounded evaluation, and to plain evaluation
with at most as much fuel. -/
theorem faithful_visit (parser : Parser) {more : Nat} (enough : fuel ≤ more) (depth : Nat)
    (frame frame' : Frame) (atom : Nat) (inside : cursor.In parser.input)
    (sound : parser.Sound state) :
    parser.Faithful depth state (parser.visit more frame atom cursor state)
      (parser.grammar.eval atom cursor)
      (Plain.visit parser.grammar parser.limits fuel depth frame' atom cursor).1 := by
  induction more generalizing fuel depth frame frame' atom cursor state with
  | zero =>
    obtain rfl : fuel = 0 := Nat.le_zero.mp enough
    exact ⟨sound, .refl _, fun settled => (by cases settled), fun _ settled => (by cases settled)⟩
  | succ more ih =>
    rw [visit]
    split
    · next node stop found => exact .stay sound (sound.shows inside found) rfl
    · next found => exact .stay sound (sound.shows inside found) rfl
    · next missing =>
      have attempted := fun fewer (fits : fewer ≤ more) =>
        faithful_attempted (parser.grammar.visit_approx_eval parser.limits fewer)
          (fun depth frame frame' atom _ _ inside sound =>
            ih fits depth frame frame' atom inside sound) depth frame frame' atom inside sound
      apply faithful_remember inside
      cases fuel with
      | zero =>
        refine (attempted 0 (Nat.zero_le _)).of_approx (.refl _) fun settled => ?_
        cases (settled : false)
      | succ fuel => exact attempted fuel (by omega)

/-! ## Reachable states -/

/-- A parser goes from state to state by trying atoms at places of its input, at any depth, with any
stack and whatever was noted or expected before. -/
inductive Evolves (parser : Parser) (first : ParserState) : ParserState → Prop where
  | refl : Evolves parser first first
  | tryAtom {state : ParserState} {cursor : Cursor} (earlier : Evolves parser first state)
      (fuel atom : Nat) (inside : cursor.In parser.input) :
      Evolves parser first (parser.tryAtom fuel atom cursor state).2
  | shift {state : ParserState} (earlier : Evolves parser first state) (trail : List (Nat × Nat))
      (depth : Nat) (furthest : Furthest) (context : List String) (silent : Nat) :
      Evolves parser first { state with trail, depth, furthest, context, silent }

namespace Evolves

variable {parser : Parser} {first state : ParserState}

theorem sound (evolves : parser.Evolves first state) (start : parser.Sound first) :
    parser.Sound state := by
  induction evolves with
  | refl => exact start
  | tryAtom earlier fuel atom inside ih =>
    rw [tryAtom_eq]
    exact (faithful_visit parser (Nat.le_refl fuel) 0 _ {} atom inside ih).sound
  | shift earlier _ _ _ _ _ ih => exact ih.congr rfl (.refl _)

theorem grows (evolves : parser.Evolves first state) (start : parser.Sound first) :
    first.arena.Grows state.arena := by
  induction evolves with
  | refl => exact .refl _
  | tryAtom earlier fuel atom inside ih =>
    have sound := earlier.sound start
    rw [tryAtom_eq]
    exact ih.trans (faithful_visit parser (Nat.le_refl fuel) 0 _ {} atom inside sound).grows
  | shift earlier _ _ _ _ _ ih => exact ih

end Evolves

/-- The states that a parser can be in: it starts with an empty memo over any arena. -/
def Reachable (parser : Parser) (state : ParserState) : Prop :=
  ∃ arena : Arena, parser.Evolves { arena } state

theorem Reachable.sound (reachable : parser.Reachable state) : parser.Sound state := by
  obtain ⟨arena, evolves⟩ := reachable
  refine evolves.sound ⟨fun inside found => ?_⟩
  simp at found

end Parser

def Outcome.map {α β : Type} (change : α → β) : Outcome α → Outcome β
  | matched value stop => matched (change value) stop
  | failed => failed
  | aborted error => aborted error

/-- Reading the stored tree of an answer gives the outcome that it shows, in 32-bit words. -/
theorem Parser.Shows.map_tree {arena : Arena} (shown : Shows arena outcome meaning) :
    outcome.map arena.tree = meaning.map Tree.stored := by
  cases shown with
  | matched kept => rw [Outcome.map, Outcome.map, kept.tree_eq]
  | failed => rfl
  | aborted error => rfl

theorem Outcome.map_stored {outcome : Outcome Tree} {input : Text}
    (covers : outcome.Covers cursor) (inside : cursor.In input)
    (fits : Text.byteLength input < 2 ^ 32) : outcome.map Tree.stored = outcome := by
  cases outcome with
  | matched tree stop =>
    have covered := covers tree stop rfl
    obtain ⟨_, takes⟩ := Tree.takes_of_covers tree covered
    have limit := (inside.after takes).offset_le
    rw [map, Tree.stored_of_covers tree covered (by omega)]
  | failed => rfl
  | aborted error => rfl

/-- Where plain evaluation settles, so does a visit, and it shows the same outcome. -/
theorem Parser.Sound.shows_plain (sound : parser.Sound state) {more : Nat} (enough : fuel ≤ more)
    (frame frame' : Frame) (atom : Nat) (inside : cursor.In parser.input)
    (settled : (Plain.visit parser.grammar parser.limits fuel state.depth frame' atom
      cursor).1.isSettled) :
    Shows (parser.visit more frame atom cursor state).2.arena
        (parser.visit more frame atom cursor state).1
        (Plain.visit parser.grammar parser.limits fuel state.depth frame' atom cursor).1 ∧
      (parser.visit more frame atom cursor state).2.depth = state.depth := by
  have faithful := faithful_visit parser enough state.depth frame frame' atom inside sound
  obtain ⟨done, level⟩ := faithful.completes rfl settled
  rw [← parser.grammar.visit_approx_eval parser.limits fuel state.depth frame' atom cursor settled]
  exact ⟨faithful.shows done, level⟩

/-- The memo is transparent. In every reachable state, trying an atom at a place of the input
gives what plain evaluation gives from the same nesting depth of rules, whenever that settles: the
same match with the same end, the same failure or the same error, and the stored tree is the tree of
plain evaluation in 32-bit words, so the very same one if the input is not too long for them. -/
theorem Parser.tryAtom_eq_plain (parser : Parser) {state : ParserState}
    (reachable : parser.Reachable state) {fuel more : Nat} (enough : fuel ≤ more)
    (frame : Frame) (atom : Nat) {cursor : Cursor} (inside : cursor.In parser.input)
    (settled : (Plain.visit parser.grammar parser.limits fuel state.depth frame atom
      cursor).1.isSettled) :
    let plain := (Plain.visit parser.grammar parser.limits fuel state.depth frame atom cursor).1
    let answer := parser.tryAtom more atom cursor state
    answer.1.map answer.2.arena.tree = plain.map Tree.stored ∧ answer.2.depth = state.depth ∧
      (Text.byteLength parser.input < 2 ^ 32 → answer.1.map answer.2.arena.tree = plain) := by
  rw [Parser.tryAtom_eq]
  obtain ⟨shown, level⟩ :=
    reachable.sound.shows_plain enough state.frame frame atom inside settled
  have same := shown.map_tree
  refine ⟨same, level, fun fits => same.trans ?_⟩
  exact Outcome.map_stored (Plain.visit_covers _ _ _ _ _ atom cursor) inside fits

/-- A choice that goes back to where its first option began to match. -/
def backtracking : Parser where
  grammar := ⟨#[.literal "a", .literal "b", .sequence [0, 1], .capture "x" 0, .choice [2, 3],
    .rule 4], 5, {}⟩
  input := ['a', 'c']

/-- The second option is matched from the memo that the first one left. -/
theorem backtracking_tryAtom :
    let state := { (backtracking.tryAtom 9 2 ⟨0, ['a', 'c']⟩ {}).2 with depth := 0 }
    let answer := backtracking.tryAtom 9 5 ⟨0, ['a', 'c']⟩ state
    backtracking.Reachable state ∧
      answer.1.map answer.2.arena.tree =
        .matched (.field ⟨0, 1⟩ "x" (.text ⟨0, 1⟩)) ⟨1, ['c']⟩ := by
  intro state answer
  have inside : Cursor.In ⟨0, ['a', 'c']⟩ backtracking.input := .start _
  have reachable : backtracking.Reachable state :=
    ⟨{}, (Parser.Evolves.refl.tryAtom 9 2 inside).shift _ 0 _ _ _⟩
  have same := Parser.tryAtom_eq_plain backtracking reachable (Nat.le_refl 9) {} 5 inside
    (by decide)
  exact ⟨reachable, (same.2.2 (by decide)).trans rfl⟩

/-! ## Parses -/

namespace Parser

variable {parser : Parser} {state after : ParserState} {node : Node} {stop : Cursor}

/-- The front of an input parses where the input is not too large and the root matches. -/
theorem parseFront_eq_ok : parser.parseFront state = (.ok (node, stop), after) ↔
    parser.limits.refusesSize (Text.byteLength parser.input) = false ∧
      parser.visit parser.fuel (state.frame.within (parser.grammar.contextName? parser.grammar.root))
        parser.grammar.root ⟨0, parser.input⟩ state = (.matched node stop, after) := by
  simp only [parseFront, within_tryAtom]
  cases parser.limits.refusesSize (Text.byteLength parser.input) with
  | true => simp
  | false =>
    generalize parser.visit _ _ _ _ state = answer
    obtain ⟨outcome, reached⟩ := answer
    cases outcome <;> simp [and_assoc]

/-- An input parses where a front of it does that is the whole of it. -/
theorem parse_eq_ok : parser.parse state = (.ok node, after) ↔
    ∃ stop, parser.parseFront state = (.ok (node, stop), after) ∧
      stop.offset = Text.byteLength parser.input := by
  unfold parse
  generalize parser.parseFront state = answer
  obtain ⟨result, reached⟩ := answer
  cases result with
  | error error => simp
  | ok found =>
    obtain ⟨found, place⟩ := found
    constructor
    · intro parsed
      simp only at parsed
      split at parsed
      · next ended =>
        cases parsed
        exact ⟨place, rfl, ended⟩
      · cases parsed
    · rintro ⟨stop, same, ended⟩
      cases same
      exact if_pos ended

/-- A front that plain evaluation of the root matches is parsed. -/
theorem Sound.parseFront_of_plain (sound : parser.Sound state)
    (small : parser.limits.refusesSize (Text.byteLength parser.input) = false)
    (enough : fuel ≤ parser.fuel) {tree : Tree}
    (matched : (Plain.visit parser.grammar parser.limits fuel state.depth {} parser.grammar.root
      ⟨0, parser.input⟩).1 = .matched tree stop) :
    ∃ node after, parser.parseFront state = (.ok (node, stop), after) ∧
      after.arena.Keeps node tree.stored := by
  obtain ⟨shown, _⟩ := sound.shows_plain enough
    (state.frame.within (parser.grammar.contextName? parser.grammar.root)) {} parser.grammar.root
    (.start parser.input) (by rw [matched]; rfl)
  rw [matched] at shown
  generalize visited : parser.visit _ _ _ _ state = answer at shown
  obtain ⟨outcome, after⟩ := answer
  cases shown with
  | @matched node _ _ kept => exact ⟨node, after, parseFront_eq_ok.mpr ⟨small, visited⟩, kept⟩

end Parser

namespace Grammar

variable {grammar : Grammar} {input : Text} {tree : Tree}

theorem parse_eq_ok : grammar.parse input = .ok tree ↔
    ∃ node after, Parser.parse { grammar, input } {} = (.ok node, after) ∧
      after.arena.tree node = tree := by
  unfold parse
  generalize Parser.parse _ _ = answer
  obtain ⟨result, after⟩ := answer
  cases result with
  | error error => simp
  | ok node =>
    constructor
    · intro parsed
      exact ⟨node, after, rfl, Except.ok.inj parsed⟩
    · rintro ⟨_, _, same, rfl⟩
      cases same
      rfl

/-- Where plain evaluation of the root settles, a parse succeeds exactly if that matches the whole
input and the input is not too large. -/
theorem parse_eq_ok_iff (enough : fuel ≤ Parser.fuel { grammar, input })
    (settled : (Plain.visit grammar {} fuel 0 {} grammar.root ⟨0, input⟩).1.isSettled) :
    grammar.parse input = .ok tree ↔ Text.byteLength input ≤ inputLimit ∧
      ∃ stop, (Plain.visit grammar {} fuel 0 {} grammar.root ⟨0, input⟩).1 = .matched tree stop ∧
        stop.offset = Text.byteLength input := by
  have inside := Cursor.In.start input
  have fresh : Parser.Sound { grammar, input } {} := Parser.Reachable.sound ⟨{}, .refl⟩
  have covers := Plain.visit_covers grammar {} fuel 0 {} grammar.root ⟨0, input⟩
  have short : inputLimit < 4294967296 := by decide
  rw [parse_eq_ok]
  constructor
  · rintro ⟨node, after, parsed, rfl⟩
    obtain ⟨stop, front, ended⟩ := Parser.parse_eq_ok.mp parsed
    obtain ⟨small, visited⟩ := Parser.parseFront_eq_ok.mp front
    have fits : Text.byteLength input ≤ inputLimit := by
      simpa [Limits.refusesSize] using small
    obtain ⟨shown, _⟩ := fresh.shows_plain enough
      (ParserState.frame {} |>.within (grammar.contextName? grammar.root)) {} grammar.root inside
      settled
    rw [visited] at shown
    have same := shown.map_tree
    rw [Outcome.map_stored covers inside (by omega)] at same
    exact ⟨fits, stop, same.symm, ended⟩
  · rintro ⟨fits, stop, matched, ended⟩
    obtain ⟨node, after, front, kept⟩ :=
      fresh.parseFront_of_plain (by simpa [Limits.refusesSize] using fits) enough matched
    refine ⟨node, after, Parser.parse_eq_ok.mpr ⟨stop, front, ended⟩, ?_⟩
    rw [kept.tree_eq, Tree.stored_of_covers tree (covers tree stop matched) (by omega)]

end Grammar

end Reflow
