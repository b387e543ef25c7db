import Reflow.Proofs.BuiltGrammar
import Reflow.Proofs.Visits

/-!
# Parsing always ends with an answer

In a grammar that was built from rules, the parts of an atom stand before it in the table, unless
the atom enters a rule. So the recursion of a parse is bounded by the levels of rules that are left
and, within a level, by the index of the atom (`Parser.room`), and the rounds of a repetition by the
characters that are left. Neither bound is ever reached: a parse of the front of an input ends with
a match, or with an error that the input, a limit or a pattern accounts for
(`Parser.parseFront_total`).
-/

namespace Reflow

open List

/-! ## Parts stand before the whole -/

/-- The parts of every atom stand in the table, and before the atom if it enters no rule. -/
structure Grammar.Layered (grammar : Grammar) : Prop where
  root : grammar.root < grammar.atoms.size
  inside : ∀ {index : Nat} {atom : Atom}, grammar.atoms[index]? = some atom →
    ∀ part ∈ atom.children, part < grammar.atoms.size
  before : ∀ {index : Nat} {atom : Atom}, grammar.atoms[index]? = some atom → atom.levels = 0 →
    ∀ part ∈ atom.children, part < index

/-- In a table that starts at an index, parts stand before the whole. -/
def Climbs (start : Nat) (atoms : List Atom) : Prop :=
  ∀ place atom, atoms[place]? = some atom → atom.levels = 0 →
    ∀ part ∈ atom.children, part < start + place

namespace Climbs

variable {start : Nat}

theorem nil : Climbs start [] := by
  intro place atom found
  cases found

theorem append {first second : List Atom} (left : Climbs start first)
    (right : Climbs (start + first.length) second) : Climbs start (first ++ second) := by
  intro place atom found level part member
  rw [List.getElem?_append] at found
  split at found
  · exact left place atom found level part member
  · have bound := right _ atom found level part member
    omega

theorem single {atom : Atom} (before : atom.levels = 0 → ∀ part ∈ atom.children, part < start) :
    Climbs start [atom] := by
  intro place other found level part member
  cases place with
  | zero =>
    cases found
    exact before level part member
  | succ place => cases found

/-- The atom of an expression stands behind the atoms of what is inside. -/
theorem whole {atoms : List Atom} {atom : Atom} (parts : Climbs start atoms)
    (before : ∀ part ∈ atom.children, part < start + atoms.length) :
    Climbs start (atoms ++ [atom]) :=
  parts.append (single fun _ => before)

end Climbs

namespace Expr

theorem tops_lt (start : Nat) (exprs : List Expr) :
    ∀ top ∈ tops start exprs, top < start + sizes exprs := by
  induction exprs generalizing start with
  | nil =>
    intro top member
    cases member
  | cons first rest ih =>
    intro top member
    have positive := first.size_pos
    rw [sizes]
    rcases mem_cons.mp member with rfl | later
    · omega
    · have bound := ih (start + first.size) top later
      omega

section

variable (target : String → Nat)

mutual

theorem climbs_atoms (start : Nat) : (expr : Expr) → Climbs start (expr.atoms target start)
  | literal _ | regex _ => .single fun _ _ member => by cases member
  | reference _ => .single fun level => by cases level
  | sequence parts | choice parts => by
    refine (climbs_allAtoms start parts).whole fun part member => ?_
    rw [length_allAtoms]
    exact tops_lt start parts part member
  | repetition inner _ _ | capture inner _ | lookahead inner _ | flat inner =>
    climbs_around start inner rfl

theorem climbs_around (start : Nat) (inner : Expr) {atom : Atom}
    (children : atom.children = [start + inner.size - 1]) :
    Climbs start (inner.atoms target start ++ [atom]) := by
  refine (climbs_atoms start inner).whole fun part member => ?_
  have positive := inner.size_pos
  rw [children, mem_singleton] at member
  rw [length_atoms]
  omega

theorem climbs_allAtoms (start : Nat) :
    (exprs : List Expr) → Climbs start (allAtoms target start exprs)
  | [] => .nil
  | first :: rest => by
    refine (climbs_atoms start first).append ?_
    rw [length_atoms]
    exact climbs_allAtoms (start + first.size) rest

end

end

end Expr

namespace Grammar

variable {rules : Rules} {grammar : Grammar}

theorem fault?_of_build (built : build rules = .ok grammar) : grammar.fault? = none :=
  ((Builder.finish_eq_ok_iff (.refl _)).mp built).2.2

/-- In a grammar without a fault, the root is an atom and no atom has a fault. -/
theorem atomFault?_of_fault? (sound : grammar.fault? = none) :
    grammar.root < grammar.atoms.size ∧
      ∀ {index : Nat} {atom : Atom}, grammar.atoms[index]? = some atom →
        atomFault? grammar.atoms.size index atom = none := by
  unfold fault? at sound
  dsimp only at sound
  split at sound
  · cases sound
  · next rooted =>
    refine ⟨by omega, fun {index atom} found => ?_⟩
    split at sound
    · cases sound
    · next faultless =>
      have listed : (atom, index) ∈ grammar.atoms.toList.zipIdx := by
        rw [mem_zipIdx_iff_getElem?, Array.getElem?_toList]
        exact found
      exact List.findSome?_eq_none_iff.mp faultless _ listed

/-- A grammar without a fault has a root, and every part of an atom is an atom. -/
theorem inside_of_fault? (sound : grammar.fault? = none) :
    grammar.root < grammar.atoms.size ∧
      ∀ {index : Nat} {atom : Atom}, grammar.atoms[index]? = some atom →
        ∀ part ∈ atom.children, part < grammar.atoms.size := by
  obtain ⟨rooted, faultless⟩ := atomFault?_of_fault? sound
  refine ⟨rooted, fun {index atom} found part member => ?_⟩
  have own := faultless found
  unfold atomFault? at own
  split at own
  · cases own
  · next missing =>
    have known := List.find?_eq_none.mp missing part member
    simpa using known

/-- Building puts the parts of every expression before the whole. -/
theorem layered_of_build (built : build rules = .ok grammar) : grammar.Layered := by
  obtain ⟨rooted, inside⟩ := inside_of_fault? (fault?_of_build built)
  refine ⟨rooted, inside, fun {index atom} found level part member => ?_⟩
  rw [← Array.getElem?_toList, (build_eq_ok built).1] at found
  have bound := Expr.climbs_allAtoms (targetOf rules) 0 (rules.map (·.2)) index atom found level
    part member
  omega

end Grammar

theorem Limits.refusesDepth_iff {limits : Limits} (bounded : limits.depth ≠ 0) (depth : Nat) :
    limits.refusesDepth depth ↔ limits.depth < depth := by
  simp [refusesDepth, Nat.pos_of_ne_zero bounded]

theorem Atom.levels_le_one (atom : Atom) : atom.levels ≤ 1 := by
  cases atom <;> simp [levels]

namespace Parser

/-! ## The bound on recursion -/

/-- How deep the recursion below an atom can still go, given the nesting depth of rules. -/
def room (parser : Parser) (depth atom : Nat) : Nat :=
  (parser.limits.depth - depth) * parser.grammar.atoms.size + atom

section Recursion

variable {parser : Parser} (layered : parser.grammar.Layered) (bounded : parser.limits.depth ≠ 0)

include layered bounded

/-- Below a part there is less room than below its atom. -/
theorem room_part {depth index part : Nat} {atom : Atom}
    (found : parser.grammar.atoms[index]? = some atom)
    (entered : ¬ (0 < atom.levels && parser.limits.refusesDepth (depth + atom.levels)) = true)
    (member : part ∈ atom.children) :
    parser.room (depth + atom.levels) part < parser.room depth index := by
  have inside := layered.inside found part member
  rw [Bool.and_eq_true, decide_eq_true_eq, Limits.refusesDepth_iff bounded] at entered
  unfold room
  rcases Nat.eq_zero_or_pos atom.levels with flat | deeper
  · have below := layered.before found flat part member
    rw [flat, Nat.add_zero]
    omega
  · have one := atom.levels_le_one
    have level : parser.limits.depth - depth =
        parser.limits.depth - (depth + atom.levels) + 1 := by omega
    rw [level, Nat.succ_mul]
    omega

omit layered bounded in
/-- Two visitors that agree on the parts of a script perform it alike. -/
theorem perform_congr {visit visit' : Visitor} (counts : Counts visit') {inner frame : Frame}
    {parts : List Nat} {depth : Nat} {faults : String → Prop}
    (agree : ∀ part ∈ parts, ∀ cursor state, state.depth = depth →
      visit inner part cursor state = visit' inner part cursor state)
    {script : Script Node}
    (all : script.All (fun part _ => part ∈ parts ∧ True) (fun _ => True) faults)
    {state : ParserState} (level : state.depth = depth) :
    perform visit inner frame script state = perform visit' inner frame script state := by
  induction script generalizing state with
  | done ending => rfl
  | part atom cursor onMatch onFailure matched failed =>
    obtain ⟨⟨member, _⟩, onward, otherwise⟩ := all
    have first := (counts inner atom cursor state).depth
    rw [perform, perform, agree atom member cursor state level]
    generalize visit' inner atom cursor state = answer at first ⊢
    obtain ⟨outcome, after⟩ := answer
    cases outcome with
    | matched node stop =>
      exact matched node stop (onward node stop trivial) (Eq.trans first level)
    | failed => exact failed otherwise (Eq.trans first level)
    | aborted error => rfl

/-- Fuel beyond the room below an atom changes nothing. -/
theorem visit_of_room {fuel more : Nat} (enough : fuel ≤ more) (frame : Frame) {index : Nat}
    (cursor : Cursor) {state : ParserState} (fits : parser.room state.depth index < fuel) :
    parser.visit more frame index cursor state = parser.visit fuel frame index cursor state := by
  induction fuel generalizing more frame index cursor state with
  | zero => omega
  | succ fuel ih =>
    obtain ⟨more, rfl⟩ : ∃ fewer, more = fewer + 1 := ⟨more - 1, by omega⟩
    cases memo : state.memo[(index, cursor.offset)]? with
    | some entry => rw [visit_of_hit more frame memo, visit_of_hit fuel frame memo]
    | none =>
      rw [visit_of_miss more frame memo, visit_of_miss fuel frame memo]
      congr 1
      cases found : parser.grammar.atoms[index]? with
      | none => rw [attempt, attempt, found]
      | some atom =>
        rw [attempt_eq parser _ frame cursor _ found, attempt_eq parser _ frame cursor _ found]
        split
        · rfl
        · next entered =>
          congr 1
          refine perform_congr (counts_visit parser fuel)
            (fun part member cursor after level => ?_)
            (Script.all_ofAtom parser.grammar atom trivial) rfl
          have less := room_part layered bounded found entered member
          refine ih (by omega) _ cursor ?_
          rw [level]
          exact Nat.lt_of_lt_of_le less (Nat.le_of_lt_succ fits)

end Recursion

/-! ## Aborts -/

/-- What a visit from a nesting depth can be aborted for. -/
inductive Stops (parser : Parser) (depth : Nat) : ParseError → Prop where
  | tooDeep :
      Stops parser depth (.recursionLimit (max parser.limits.depth depth + 1) parser.limits.depth)
  | malformed {pattern : String} (used : .regex pattern ∈ parser.grammar.atoms)
      (broken : Regex.anchored? pattern = none) :
      Stops parser depth (.invalidGrammar (.malformedRegex pattern))

/-- Whatever aborts the performance of a script aborts one of the parts, or is a pattern that does
not compile. -/
theorem aborted_perform {visit : Visitor} (counts : Counts visit) {inner frame : Frame}
    {parts : List Nat} {depth : Nat} {faults : String → Prop} {stops : ParseError → Prop}
    (sub : ∀ part ∈ parts, ∀ cursor state error, state.depth = depth →
      (visit inner part cursor state).1 = .aborted error → stops error)
    (fault : ∀ pattern, faults pattern → stops (.invalidGrammar (.malformedRegex pattern)))
    {script : Script Node}
    (all : script.All (fun part _ => part ∈ parts ∧ True) (fun _ => True) faults)
    {state : ParserState} (level : state.depth = depth) {error : ParseError}
    (aborted : (perform visit inner frame script state).1 = .aborted error) : stops error := by
  induction script generalizing state with
  | done ending =>
    cases ending with
    | malformed pattern =>
      cases aborted
      exact fault pattern all
    | _ => cases aborted
  | part atom cursor onMatch onFailure matched failed =>
    obtain ⟨⟨member, _⟩, onward, otherwise⟩ := all
    have first := (counts inner atom cursor state).depth
    have part := sub atom member cursor state error level
    rw [perform] at aborted
    generalize visit inner atom cursor state = answer at first part aborted
    obtain ⟨outcome, after⟩ := answer
    cases outcome with
    | matched node stop =>
      exact matched node stop (onward node stop trivial) (Eq.trans first level) aborted
    | failed => exact failed otherwise (Eq.trans first level) aborted
    | aborted other => exact part aborted

section Aborts

variable {parser : Parser} (layered : parser.grammar.Layered) (bounded : parser.limits.depth ≠ 0)

include layered bounded

/-- With fuel for the room below its atom, a visit is aborted only by a limit or by a pattern. -/
theorem stops_visit {fuel : Nat} (frame : Frame) {index : Nat} (cursor : Cursor)
    {state : ParserState} (inside : index < parser.grammar.atoms.size)
    (fits : parser.room state.depth index < fuel) {error : ParseError}
    (aborted : (parser.visit fuel frame index cursor state).1 = .aborted error) :
    parser.Stops state.depth error := by
  induction fuel generalizing frame index cursor state error with
  | zero => omega
  | succ fuel ih =>
    cases memo : state.memo[(index, cursor.offset)]? with
    | some entry =>
      rw [visit_of_hit fuel frame memo] at aborted
      cases entry <;> cases aborted
    | none =>
      have found : parser.grammar.atoms[index]? = some parser.grammar.atoms[index] :=
        Array.getElem?_eq_getElem inside
      generalize parser.grammar.atoms[index] = atom at found
      rw [visit_of_miss fuel frame memo, remember_fst,
        attempt_eq parser _ frame cursor _ found] at aborted
      have one := atom.levels_le_one
      split at aborted
      · next refused =>
        rw [Bool.and_eq_true, decide_eq_true_eq, Limits.refusesDepth_iff bounded] at refused
        have level : (noted index cursor state).depth = state.depth := rfl
        have deep : (noted index cursor state).depth + atom.levels =
            max parser.limits.depth state.depth + 1 := by omega
        rw [deep] at aborted
        cases aborted
        exact .tooDeep
      · next entered =>
        have inner : parser.Stops (state.depth + atom.levels) error := by
          refine aborted_perform (counts_visit parser fuel) ?_ ?_
            (Script.all_ofAtom parser.grammar atom trivial) rfl aborted
          · intro part member cursor after error level stopped
            have less := room_part layered bounded found entered member
            have deeper : after.depth = state.depth + atom.levels := level
            rw [← deeper]
            refine ih _ cursor (layered.inside found part member) ?_ stopped
            rw [deeper]
            exact Nat.lt_of_lt_of_le less (Nat.le_of_lt_succ fits)
          · rintro pattern ⟨rfl, broken⟩
            exact .malformed (Array.mem_of_getElem? found) broken
        -- A rule that was entered lies within the limit, so the limit is exceeded one level
        -- behind it, wherever the visit began.
        rw [Bool.and_eq_true, decide_eq_true_eq, Limits.refusesDepth_iff bounded] at entered
        have level : (noted index cursor state).depth = state.depth := rfl
        cases inner with
        | malformed used broken => exact .malformed used broken
        | tooDeep =>
          have same : max parser.limits.depth (state.depth + atom.levels) =
              max parser.limits.depth state.depth := by omega
          rw [same]
          exact .tooDeep

end Aborts

/-! ## The bound on rounds -/

/-- A round that goes on leaves fewer characters, so more rounds than characters change nothing. -/
theorem repetition_of_rounds (parser : Parser) (fuel : Nat) (start : Cursor) (atom least : Nat)
    (most : Option Nat) {rounds more : Nat} (enough : rounds ≤ more) (nodes : List Node)
    {cursor : Cursor} {state : ParserState} (inside : cursor.In parser.input)
    (sound : parser.Sound state) (fits : cursor.rest.length < rounds) :
    repetition (parser.tryAtom fuel) start atom least most more nodes cursor state =
      repetition (parser.tryAtom fuel) start atom least most rounds nodes cursor state := by
  induction rounds generalizing more nodes cursor state with
  | zero => omega
  | succ rounds ih =>
    obtain ⟨more, rfl⟩ : ∃ fewer, more = fewer + 1 := ⟨more - 1, by omega⟩
    have takes : ∀ node stop, (parser.visit fuel state.frame atom cursor state).1 =
        .matched node stop → ∃ text, cursor.Takes text stop := fun _ _ => sound.takes_of_visit inside
    have later : parser.Sound (parser.visit fuel state.frame atom cursor state).2 :=
      sound.visit inside fuel state.frame
    rw [repetition, repetition, tryAtom_eq]
    generalize parser.visit fuel state.frame atom cursor state = answer at takes later ⊢
    obtain ⟨outcome, after⟩ := answer
    cases outcome with
    | matched node stop =>
      obtain ⟨text, taken⟩ := takes node stop rfl
      have shorter := taken.length_eq
      dsimp only
      split
      · split
        · rfl
        · next onward =>
          have someText : text.length ≠ 0 := by
            intro noneTaken
            have empty := eq_nil_of_length_eq_zero noneTaken
            have offset := taken.offsetEq
            rw [empty] at offset
            exact onward offset
          exact ih (by omega) _ (inside.after taken) later (by omega)
      · rfl
    | failed => rfl
    | aborted error => rfl

/-! ## Totality -/

/-- What a parse of the front of an input can answer, given the nesting depth it began with. -/
inductive Answers (parser : Parser) (depth : Nat) : Except ParseError (Node × Cursor) → Prop where
  | matched (node : Node) (stop : Cursor) : Answers parser depth (.ok (node, stop))
  | unmatched (position : Nat) (expected : String) :
      Answers parser depth (.error (.unmatched position expected))
  | tooLarge (large : parser.limits.refusesSize (Text.byteLength parser.input)) :
      Answers parser depth
        (.error (.inputTooLarge (Text.byteLength parser.input) parser.limits.inputSize))
  | stopped {error : ParseError} (stops : parser.Stops depth error) :
      Answers parser depth (.error error)

/-- The bounds that keep the parser's recursion and its loops finite have no say in a parse: any
more fuel and any more rounds than there are characters give the same. -/
structure Unhindered (parser : Parser) (state : ParserState) : Prop where
  recursion : ∀ fuel ≥ parser.fuel, ∀ name,
    within (parser.tryAtom fuel) name parser.grammar.root ⟨0, parser.input⟩ state =
      within (parser.tryAtom parser.fuel) name parser.grammar.root ⟨0, parser.input⟩ state
  loops : ∀ (fuel : Nat) (start cursor : Cursor) (atom least : Nat) (most : Option Nat)
    (nodes : List Node) (reached : ParserState), cursor.In parser.input →
    parser.Sound reached → ∀ rounds > cursor.rest.length,
      repetition (parser.tryAtom fuel) start atom least most rounds nodes cursor reached =
        repetition (parser.tryAtom fuel) start atom least most (cursor.rest.length + 1) nodes
          cursor reached

theorem room_root_lt_fuel (parser : Parser) (layered : parser.grammar.Layered) (depth : Nat) :
    parser.room depth parser.grammar.root < parser.fuel := by
  have rooted := layered.root
  calc parser.room depth parser.grammar.root
      < (parser.limits.depth - depth) * parser.grammar.atoms.size + parser.grammar.atoms.size :=
        Nat.add_lt_add_left rooted _
    _ = (parser.limits.depth - depth + 1) * parser.grammar.atoms.size := by rw [Nat.succ_mul]
    _ ≤ parser.fuel := by
        refine Nat.mul_le_mul (by omega) ?_
        exact Nat.le_succ_of_le (Nat.le_mul_of_pos_right _ (Nat.succ_pos _))

/-- With a grammar that was built from rules, however they refer to each other, and a limit on the
nesting of rules, every parse of the front of an input ends: with a match, or because the grammar
does not match, the input is too large, rules are nested too deep or a pattern does not compile. -/
theorem parseFront_total {rules : Rules} {grammar : Grammar}
    (built : Grammar.build rules = .ok grammar) {limits : Limits} (bounded : limits.depth ≠ 0)
    (input : Text) (state : ParserState) :
    Answers ⟨grammar, limits, input⟩ state.depth (parseFront ⟨grammar, limits, input⟩ state).1 ∧
      Unhindered ⟨grammar, limits, input⟩ state := by
  have layered := Grammar.layered_of_build built
  have fits := room_root_lt_fuel ⟨grammar, limits, input⟩ layered state.depth
  refine ⟨?_, fun fuel enough name => ?_, ?_⟩
  · simp only [parseFront, within_tryAtom]
    split
    · next large => exact .tooLarge large
    · have stops := fun error => @stops_visit ⟨grammar, limits, input⟩ layered bounded _
        (state.frame.within (grammar.contextName? grammar.root)) _ ⟨0, input⟩ state layered.root
        fits error
      generalize visit _ _ _ _ _ _ = answer at stops ⊢
      obtain ⟨outcome, after⟩ := answer
      cases outcome with
      | matched node stop => exact .matched node stop
      | failed =>
        dsimp only [unmatched]
        split <;> exact .unmatched _ _
      | aborted error => exact .stopped (stops error rfl)
  · rw [within_tryAtom, within_tryAtom]
    exact visit_of_room layered bounded enough _ ⟨0, input⟩ fits
  · intro fuel start cursor atom least most nodes reached inside sound rounds more
    exact repetition_of_rounds ⟨grammar, limits, input⟩ fuel start atom least most
      (Nat.succ_le_of_lt more) nodes inside sound (Nat.lt_succ_self _)

/-- Sums whose rule begins with itself. -/
def sums : Rules :=
  [("sum", .choice [.sequence [.reference "sum", .literal "+x"], .literal "x"])]

/-- The parse of a sum ends, though its rule comes back to itself at the same place. -/
theorem parseFront_sums :
    let grammar : Grammar :=
      ⟨#[.rule 4, .literal "+x", .sequence [0, 1], .literal "x", .choice [2, 3]], 4,
        .ofList [("sum", 4)]⟩
    Grammar.build sums = .ok grammar ∧
      Answers ⟨grammar, ⟨0, 3⟩, ['x']⟩ 0 (parseFront ⟨grammar, ⟨0, 3⟩, ['x']⟩ {}).1 := by
  intro grammar
  have built : Grammar.build sums = .ok grammar := rfl
  have total := @parseFront_total sums grammar built ⟨0, 3⟩ (by decide) ['x'] {}
  exact ⟨built, total.1⟩

end Parser

end Reflow
