import Reflow.Document.Format
import Reflow.Proofs.Diagnostics

/-!
# Which failures a parser reports

A parser that fails reports what some of the expectations that plain evaluation misses amount to,
and what all of them amount to in a steady grammar (`Parser.unmatched_report`). A grammar that was
built from rules is steady if no lookahead holds a reference to a rule (`Grammar.steady_of_build`),
which is the case for the grammars of all kinds of text (`TextKind.steady`). Where one does, the
report can fall short (`Parser.peeked_report`).
-/

namespace Reflow

open List

namespace Expr

/-! ## Frames of expressions -/

mutual

/-- The frames in which the atoms of an expression are tried, given the frame of its own atom. -/
def frames (frame : Frame) : Expr → List Frame
  | literal _ | regex _ | reference _ => [frame]
  | sequence parts => allFrames frame parts ++ [frame]
  | choice options => allFrames frame options ++ [frame]
  | repetition inner _ _ | flat inner => inner.frames frame ++ [frame]
  | capture inner label => inner.frames (frame.within (some label)) ++ [frame]
  | lookahead inner _ => inner.frames { frame with silent := true } ++ [frame]

def allFrames (frame : Frame) : List Expr → List Frame
  | [] => []
  | first :: rest => first.frames frame ++ allFrames frame rest

end

mutual

/-- Whether no reference stands inside a lookahead, given whether the expression does. -/
def refersOutside (silent : Bool) : Expr → Bool
  | literal _ | regex _ => true
  | reference _ => !silent
  | sequence parts => allReferOutside silent parts
  | choice options => allReferOutside silent options
  | repetition inner _ _ | capture inner _ | flat inner => inner.refersOutside silent
  | lookahead inner _ => inner.refersOutside true

def allReferOutside (silent : Bool) : List Expr → Bool
  | [] => true
  | first :: rest => first.refersOutside silent && allReferOutside silent rest

end

mutual

theorem length_frames (frame : Frame) : (expr : Expr) → (expr.frames frame).length = expr.size
  | literal _ | regex _ | reference _ => rfl
  | sequence parts | choice parts => by simp [frames, size, length_allFrames frame parts]
  | repetition inner _ _ | capture inner _ | lookahead inner _ | flat inner => by
    simp [frames, size, length_frames _ inner]

theorem length_allFrames (frame : Frame) :
    (exprs : List Expr) → (allFrames frame exprs).length = sizes exprs
  | [] => rfl
  | first :: rest => by
    simp [allFrames, sizes, length_frames frame first, length_allFrames frame rest]

end

/-- The last frame of an expression is its own. -/
theorem own_frames (frame : Frame) (expr : Expr) :
    (expr.frames frame)[expr.size - 1]? = some frame := by
  rw [← length_frames frame expr, ← List.getLast?_eq_getElem?]
  cases expr <;> simp [frames]

theorem tops_allFrames (frame : Frame) (start : Nat) (exprs : List Expr) :
    ∀ top ∈ tops start exprs, ∃ place, top = start + place ∧
      (allFrames frame exprs)[place]? = some frame := by
  induction exprs generalizing start with
  | nil =>
    intro top member
    cases member
  | cons first rest ih =>
    intro top member
    have positive := first.size_pos
    have length := length_frames frame first
    rcases mem_cons.mp member with rfl | later
    · refine ⟨first.size - 1, by omega, ?_⟩
      rw [allFrames, List.getElem?_append_left (by omega), own_frames]
    · obtain ⟨place, rfl, found⟩ := ih (start + first.size) top later
      refine ⟨first.size + place, by omega, ?_⟩
      rw [allFrames, List.getElem?_append_right (by omega), length, Nat.add_sub_cancel_left,
        found]

end Expr

/-- Atoms that stand in a table from an index on, with a frame for each: the parts of an atom that
enters no rule have the frame that is inside the atom's own, and no rule is entered silently. -/
structure Fits (grammar : Grammar) (start : Nat) (atoms : List Atom) (frames : List Frame) :
    Prop where
  length : frames.length = atoms.length
  part : ∀ {place : Nat} {atom : Atom} {frame : Frame}, atoms[place]? = some atom →
    frames[place]? = some frame → atom.levels = 0 → ∀ part ∈ atom.children,
      ∃ inner, part = start + inner ∧ frames[inner]? = some (frame.inside grammar atom)
  rule : ∀ {place inner : Nat} {frame : Frame}, atoms[place]? = some (.rule inner) →
    frames[place]? = some frame → frame.silent = false

variable {frame : Frame}

namespace Fits

variable {grammar : Grammar} {start : Nat}

theorem nil : Fits grammar start [] [] where
  length := rfl
  part := fun found => by cases found
  rule := fun found => by cases found

variable {atoms : List Atom} {frames' : List Frame}

/-- An atom of two tables one behind the other is one of the first or of the second, and so is its
frame. -/
theorem entry_append {atoms' : List Atom} {frames : List Frame}
    (length : frames.length = atoms.length) {place : Nat} {atom : Atom}
    (found : (atoms ++ atoms')[place]? = some atom)
    (framed : (frames ++ frames')[place]? = some frame) :
    atoms[place]? = some atom ∧ frames[place]? = some frame ∨
      atoms'[place - atoms.length]? = some atom ∧
        frames'[place - atoms.length]? = some frame := by
  rw [List.getElem?_append] at found framed
  rw [length] at framed
  split at found
  · next early => exact .inl ⟨found, by rwa [if_pos early] at framed⟩
  · next late => exact .inr ⟨found, by rwa [if_neg late] at framed⟩

theorem frame_append_left {frames : List Frame} {place : Nat}
    (framed : frames[place]? = some frame) : (frames ++ frames')[place]? = some frame := by
  rw [List.getElem?_append_left (List.getElem?_eq_some_iff.mp framed).1, framed]

theorem append {atoms' : List Atom} {frames : List Frame} (left : Fits grammar start atoms frames)
    (right : Fits grammar (start + atoms.length) atoms' frames') :
    Fits grammar start (atoms ++ atoms') (frames ++ frames') where
  length := by rw [length_append, length_append, left.length, right.length]
  part := by
    intro place atom frame found framed level part member
    rcases entry_append left.length found framed with ⟨found, framed⟩ | ⟨found, framed⟩
    · obtain ⟨inner, rfl, there⟩ := left.part found framed level part member
      exact ⟨inner, rfl, frame_append_left there⟩
    · obtain ⟨inner, rfl, there⟩ := right.part found framed level part member
      refine ⟨frames.length + inner, by rw [left.length, Nat.add_assoc], ?_⟩
      rw [List.getElem?_append_right (Nat.le_add_right _ _), Nat.add_sub_cancel_left, there]
  rule := by
    intro place inner frame found framed
    rcases entry_append left.length found framed with ⟨found, framed⟩ | ⟨found, framed⟩
    · exact left.rule found framed
    · exact right.rule found framed

/-- The atom of an expression stands behind the atoms of what is inside. -/
theorem whole {frames : List Frame} {atom : Atom} (inside : Fits grammar start atoms frames)
    (parts : atom.levels = 0 → ∀ part ∈ atom.children,
      ∃ inner, part = start + inner ∧ frames[inner]? = some (frame.inside grammar atom))
    (heard : atom.levels ≠ 0 → frame.silent = false) :
    Fits grammar start (atoms ++ [atom]) (frames ++ [frame]) where
  length := by rw [length_append, length_append, inside.length]; rfl
  part := by
    intro place other outer found framed level part member
    have earlier : ∃ inner, part = start + inner ∧
        frames[inner]? = some (outer.inside grammar other) := by
      rcases entry_append inside.length found framed with ⟨found, framed⟩ | ⟨found, framed⟩
      · exact inside.part found framed level part member
      · obtain rfl := mem_singleton.mp (mem_of_getElem? found)
        obtain rfl := mem_singleton.mp (mem_of_getElem? framed)
        exact parts level part member
    obtain ⟨inner, rfl, there⟩ := earlier
    exact ⟨inner, rfl, frame_append_left there⟩
  rule := by
    intro place inner outer found framed
    rcases entry_append inside.length found framed with ⟨found, framed⟩ | ⟨found, framed⟩
    · exact inside.rule found framed
    · obtain rfl := mem_singleton.mp (mem_of_getElem? found)
      obtain rfl := mem_singleton.mp (mem_of_getElem? framed)
      exact heard Nat.one_ne_zero

end Fits

namespace Expr

section Fitting

variable {grammar : Grammar} {target : String → Nat}

theorem fits_around {atom : Atom} {start : Nat} {inner : Expr}
    (inside : Fits grammar start (inner.atoms target start)
      (inner.frames (frame.inside grammar atom))) (level : atom.levels = 0)
    (children : atom.children = [start + inner.size - 1]) :
    Fits grammar start (inner.atoms target start ++ [atom])
      (inner.frames (frame.inside grammar atom) ++ [frame]) := by
  refine inside.whole (fun _ part member => ?_) fun raised => absurd level raised
  rw [children, mem_singleton] at member
  have positive := inner.size_pos
  exact ⟨inner.size - 1, by omega, own_frames _ inner⟩

mutual

/-- The frames of an expression fit its atoms. -/
theorem fits_frames (frame : Frame) (start : Nat) : (expr : Expr) →
    expr.refersOutside frame.silent →
    Fits grammar start (expr.atoms target start) (expr.frames frame)
  | literal _, _ | regex _, _ =>
    Fits.nil.whole (fun _ _ member => by cases member) (fun level => absurd rfl level)
  | reference _, outside => by
    refine Fits.nil.whole (fun level => by cases level) fun _ => ?_
    simpa [refersOutside] using outside
  | sequence parts, outside | choice parts, outside =>
    (fits_allFrames frame start parts outside).whole (fun _ => tops_allFrames frame start parts)
      (fun level => absurd rfl level)
  | repetition inner _ _, outside | capture inner _, outside | lookahead inner _, outside
  | flat inner, outside => fits_around (fits_frames _ start inner outside) rfl rfl

theorem fits_allFrames (frame : Frame) (start : Nat) : (exprs : List Expr) →
    allReferOutside frame.silent exprs →
    Fits grammar start (allAtoms target start exprs) (allFrames frame exprs)
  | [], _ => .nil
  | first :: rest, outside => by
    rw [allReferOutside, Bool.and_eq_true] at outside
    refine (fits_frames frame start first outside.1).append ?_
    rw [length_atoms]
    exact fits_allFrames frame (start + first.size) rest outside.2

end

end Fitting

mutual

/-- Atoms that enter a rule come from references. -/
theorem mem_references {target : String → Nat} {start inner : Nat} : (expr : Expr) →
    .rule inner ∈ expr.atoms target start → ∃ name ∈ expr.references, inner = target name
  | literal _, member | regex _, member => by simp [atoms] at member
  | reference rule, member => by
    simp only [atoms, mem_singleton, Atom.rule.injEq] at member
    exact ⟨rule, mem_singleton.mpr rfl, member⟩
  | sequence parts, member | choice parts, member => by
    simp only [atoms, mem_append, mem_singleton, reduceCtorEq, or_false] at member
    exact mem_allReferences parts member
  | repetition expr _ _, member | capture expr _, member | lookahead expr _, member
  | flat expr, member => by
    simp only [atoms, mem_append, mem_singleton, reduceCtorEq, or_false] at member
    exact mem_references expr member

theorem mem_allReferences {target : String → Nat} {start inner : Nat} : (exprs : List Expr) →
    .rule inner ∈ allAtoms target start exprs → ∃ name ∈ allReferences exprs, inner = target name
  | [], member => by cases member
  | first :: rest, member => by
    rw [allAtoms, mem_append] at member
    rw [allReferences]
    rcases member with early | late
    · obtain ⟨name, known, same⟩ := mem_references first early
      exact ⟨name, mem_append_left _ known, same⟩
    · obtain ⟨name, known, same⟩ := mem_allReferences rest late
      exact ⟨name, mem_append_right _ known, same⟩

end

end Expr

/-! ## Frames of rules -/

namespace Grammar

/-- The frames of the bodies of rules, each of which is tried under the name of its rule. -/
def ruleFrames (grammar : Grammar) (start : Nat) : List Expr → List Frame
  | [] => []
  | body :: rest =>
    body.frames ⟨grammar.contextName? (start + body.size - 1), false⟩ ++
      ruleFrames grammar (start + body.size) rest

theorem tops_ruleFrames (grammar : Grammar) (start : Nat) (bodies : List Expr) :
    ∀ top ∈ Expr.tops start bodies, ∃ place, top = start + place ∧
      (grammar.ruleFrames start bodies)[place]? = some ⟨grammar.contextName? top, false⟩ := by
  induction bodies generalizing start with
  | nil =>
    intro top member
    cases member
  | cons body rest ih =>
    intro top member
    have positive := body.size_pos
    have length := body.length_frames ⟨grammar.contextName? (start + body.size - 1), false⟩
    rcases mem_cons.mp member with rfl | later
    · refine ⟨body.size - 1, by omega, ?_⟩
      rw [ruleFrames, List.getElem?_append_left (by omega), Expr.own_frames]
    · obtain ⟨place, rfl, found⟩ := ih (start + body.size) top later
      refine ⟨body.size + place, by omega, ?_⟩
      rw [ruleFrames, List.getElem?_append_right (by omega), length, Nat.add_sub_cancel_left,
        found]

theorem fits_ruleFrames (grammar : Grammar) (target : String → Nat) (start : Nat)
    {bodies : List Expr} (outside : ∀ body ∈ bodies, body.refersOutside false) :
    Fits grammar start (Expr.allAtoms target start bodies) (grammar.ruleFrames start bodies) := by
  induction bodies generalizing start with
  | nil => exact .nil
  | cons body rest ih =>
    refine (Expr.fits_frames _ start body (outside body mem_cons_self)).append ?_
    rw [Expr.length_atoms]
    exact ih (start + body.size) (forall_mem_cons.mp outside).2

variable {rules : Rules} {grammar : Grammar}

/-- Building knows every name that the rules refer to, and the name of the first rule. -/
theorem defined_of_build (built : build rules = .ok grammar) :
    grammar.rules = ruleMap rules ∧
      ∀ name ∈ Expr.allReferences (rules.map (·.2)), ((ruleMap rules).get? name).isSome := by
  obtain ⟨defined, ⟨root, others, rfl, rfl⟩, -⟩ := (Builder.finish_eq_ok_iff (.refl _)).mp built
  exact ⟨rfl, defined⟩

theorem root_of_build (built : build rules = .ok grammar) :
    ∃ name, ((ruleMap rules).get? name).isSome ∧ grammar.root = targetOf rules name := by
  have rooted := (build_eq_ok built).2
  cases rules with
  | nil => cases rooted
  | cons rule rest =>
    obtain ⟨body, defined⟩ := exists_bodyOf?_head rule rest
    exact ⟨rule.1, known_of_defined defined, (Option.some.inj rooted).symm⟩

/-- A name that building knows stands for the top of a body, which has a name for diagnostics. -/
theorem targetOf_known (same : grammar.rules = ruleMap rules) {name : String}
    (known : ((ruleMap rules).get? name).isSome) :
    targetOf rules name ∈ Expr.tops 0 (rules.map (·.2)) ∧
      (grammar.contextName? (targetOf rules name)).isSome := by
  obtain ⟨top, found⟩ := Option.isSome_iff_exists.mp known
  have target : targetOf rules name = top := by rw [targetOf, found, Option.getD_some]
  rw [target]
  constructor
  · rw [ruleMap, SortedMap.get?_ofList] at found
    obtain ⟨before, after, whole, _⟩ := lookup_eq_some_iff.mp found
    have member : (name, top) ∈ (rules.map (·.1)).zip (Expr.tops 0 (rules.map (·.2))) := by
      rw [← mem_reverse, whole]
      simp
    exact (of_mem_zip member).2
  · rw [SortedMap.get?] at found
    obtain ⟨before, after, whole, _⟩ := lookup_eq_some_iff.mp found
    rw [contextName?, Option.isSome_map, List.find?_isSome, same]
    exact ⟨(name, top), by rw [whole]; simp, beq_self_eq_true top⟩

/-- In a built grammar that refers to no rule inside a lookahead, the frames of the rules are the
frames in which atoms are tried. -/
theorem Tries.framed (built : build rules = .ok grammar)
    (outside : ∀ rule ∈ rules, rule.2.refersOutside false) {index : Nat}
    (tried : grammar.Tries index frame) :
    (grammar.ruleFrames 0 (rules.map (·.2)))[index]? = some frame := by
  obtain ⟨same, defined⟩ := defined_of_build built
  have table := (build_eq_ok built).1
  have fits : Fits grammar 0 grammar.atoms.toList (grammar.ruleFrames 0 (rules.map (·.2))) := by
    rw [table]
    refine fits_ruleFrames grammar (targetOf rules) 0 fun body member => ?_
    obtain ⟨rule, listed, rfl⟩ := mem_map.mp member
    exact outside rule listed
  have body : ∀ name, ((ruleMap rules).get? name).isSome →
      (grammar.ruleFrames 0 (rules.map (·.2)))[targetOf rules name]? =
        some ⟨grammar.contextName? (targetOf rules name), false⟩ := by
    intro name known
    obtain ⟨place, there, found⟩ :=
      tops_ruleFrames grammar 0 _ _ (targetOf_known same known).1
    rw [Nat.zero_add] at there
    rw [← there] at found
    exact found
  induction tried with
  | root =>
    obtain ⟨name, known, rooted⟩ := root_of_build built
    rw [rooted, body name known]
    cases grammar.contextName? (targetOf rules name) <;> rfl
  | @part index part frame atom _ found member ih =>
    rw [← Array.getElem?_toList] at found
    rcases Nat.eq_zero_or_pos atom.levels with level | raised
    · obtain ⟨inner, rfl, there⟩ := fits.part found ih level part member
      rwa [Nat.zero_add]
    · cases atom with
      | rule inner =>
        obtain rfl := mem_singleton.mp member
        have heard := fits.rule found ih
        rw [table] at found
        obtain ⟨name, referred, rfl⟩ := Expr.mem_allReferences _ (mem_of_getElem? found)
        have known := defined name referred
        obtain ⟨context, named⟩ :=
          Option.isSome_iff_exists.mp (targetOf_known same known).2
        rw [body name known, Frame.inside, named, Frame.within, heard]
      | _ => cases raised

/-- A built grammar is steady if no lookahead holds a reference to a rule. -/
theorem steady_of_build (built : build rules = .ok grammar)
    (outside : ∀ rule ∈ rules, rule.2.refersOutside false) : grammar.Steady := by
  intro atom first second left right
  have same := (left.framed built outside).symm.trans (right.framed built outside)
  exact .inl (Option.some.inj same)

end Grammar

/-- The grammars of all kinds of text are steady. -/
theorem TextKind.steady {kind : TextKind} {found : Grammar} (built : kind.grammar = .ok found) :
    found.Steady := by
  cases kind with
  | blockComment =>
    rw [grammar, Document.Block.grammar] at built
    have outside : ∀ rule ∈ Document.Block.rules, rule.2.refersOutside false := by
      decide +kernel
    exact Grammar.steady_of_build built outside
  | lineComment =>
    rw [grammar, Document.LineComment.grammar] at built
    have outside : ∀ rule ∈ Document.LineComment.rules, rule.2.refersOutside false := by
      decide +kernel
    exact Grammar.steady_of_build built outside
  | prose =>
    rw [grammar, Document.Prose.grammar] at built
    have outside : ∀ rule ∈ Document.Prose.rules, rule.2.refersOutside false := by
      decide +kernel
    exact Grammar.steady_of_build built outside

/-! ## Reports of a parse -/

/-- Where a match ended; the start of the input if there was none. -/
def Outcome.reached {α : Type} : Outcome α → Nat
  | matched _ stop => stop.offset
  | _ => 0

namespace Parser

theorem visit_ne_unmatched (parser : Parser) (fuel : Nat) (frame : Frame) (index : Nat)
    (cursor : Cursor) (state : ParserState) (position : Nat) (expected : String) :
    (parser.visit fuel frame index cursor state).1 ≠ .aborted (.unmatched position expected) := by
  induction fuel generalizing frame index cursor state with
  | zero => exact fun same => by cases same
  | succ fuel ih =>
    intro same
    cases memo : state.memo[(index, cursor.offset)]? with
    | some entry =>
      rw [visit_of_hit fuel frame memo] at same
      exact recorded_ne_aborted entry _ same
    | none =>
      rw [visit_of_miss fuel frame memo, remember_fst] at same
      cases found : parser.grammar.atoms[index]? with
      | none =>
        rw [attempt, found] at same
        cases same
      | some atom =>
        rw [attempt_eq parser _ frame cursor _ found] at same
        split at same
        · cases same
        · have sub : ∀ part ∈ atom.children, ∀ cursor after error,
              after.depth = (raise atom.levels (noted index cursor state)).depth →
              (parser.visit fuel (frame.inside parser.grammar atom) part cursor after).1 =
                .aborted error → error ≠ .unmatched position expected := by
            rintro part _ cursor after _ _ aborted rfl
            exact ih _ part cursor after aborted
          exact aborted_perform (counts_visit parser fuel) sub
            (fun _ _ equal => by cases equal)
            (Script.all_ofAtom parser.grammar atom trivial) rfl same rfl

/-- A parse that does not match reports on the visit of the root. -/
theorem unmatched_of_parse {parser : Parser} {state after : ParserState} {position : Nat}
    {expected : String}
    (refused : parser.parse state = (.error (.unmatched position expected), after)) :
    ∃ entry, parser.visit parser.fuel (parser.rootFrame state.frame) parser.grammar.root
        ⟨0, parser.input⟩ state = (recorded entry, after) ∧
      .unmatched position expected = unmatched after (recorded entry).reached := by
  have never := parser.visit_ne_unmatched parser.fuel (parser.rootFrame state.frame)
    parser.grammar.root ⟨0, parser.input⟩ state position expected
  rw [parse_eq, parseFront_eq] at refused
  by_cases large : parser.limits.refusesSize (Text.byteLength parser.input)
  · rw [if_pos large] at refused
    cases refused
  · rw [if_neg large] at refused
    generalize parser.visit _ _ _ _ _ = answer at never refused ⊢
    obtain ⟨outcome, reached⟩ := answer
    cases outcome with
    | matched node stop =>
      simp only [concluded, Prod.mk.injEq] at refused
      obtain ⟨report, rfl⟩ := refused
      split at report
      · cases report
      · exact ⟨some (node, stop), rfl, (Except.error.inj report).symm⟩
    | failed =>
      simp only [concluded, Prod.mk.injEq, Except.error.injEq] at refused
      obtain ⟨report, rfl⟩ := refused
      exact ⟨none, rfl, report.symm⟩
    | aborted error =>
      simp only [concluded, Prod.mk.injEq, Except.error.injEq] at refused
      exact absurd (congrArg Outcome.aborted refused.1) never

theorem Shows.reached_eq {arena : Arena} {outcome : Outcome Node} {meaning : Outcome Tree}
    (shown : Shows arena outcome meaning) : outcome.reached = meaning.reached := by
  cases shown <;> rfl

/-- Where a visit finishes, plain evaluation settles, given enough fuel. -/
theorem Sound.exists_settled {parser : Parser} {state : ParserState} (sound : parser.Sound state)
    {cursor : Cursor} (inside : cursor.In parser.input) {fuel : Nat} {atom : Nat}
    (finished : (parser.visit fuel frame atom cursor state).1.isSettled) (depth : Nat)
    (frame' : Frame) :
    ∃ enough, (Plain.visit parser.grammar .unlimited enough depth frame' atom
      cursor).1.isSettled := by
  have shown := (faithful_visit parser (Nat.le_refl fuel) 0 frame {} atom inside sound).shows
    finished
  have limit : (parser.grammar.eval atom cursor).isSettled :=
    shown.isSettled_eq.trans finished
  obtain ⟨enough, same⟩ := parser.grammar.converges_visit depth frame' atom cursor limit
  have reached : (Plain.visit parser.grammar .unlimited enough depth frame' atom cursor).1 =
      parser.grammar.eval atom cursor := same enough (Nat.le_refl enough)
  exact ⟨enough, by rw [reached, limit]⟩

/-- A parse from the start that does not match took note of what plain evaluation misses. -/
theorem reported_of_parse {parser : Parser} {arena : Arena} {position : Nat} {expected : String}
    {after : ParserState} {fuel : Nat} {trace : Plain.Trace}
    (refused : parser.parse { arena } = (.error (.unmatched position expected), after))
    (evaluated : Plain.visit parser.grammar .unlimited fuel 0 parser.rootFrame
      parser.grammar.root ⟨0, parser.input⟩ = trace) (settled : trace.1.isSettled) :
    (∃ kept, kept.Sublist trace.2 ∧
        .unmatched position expected = diagnosis kept trace.1.reached) ∧
      (parser.grammar.Steady →
        .unmatched position expected = diagnosis trace.2 trace.1.reached) := by
  have inside := Cursor.In.start parser.input
  have sound : parser.Sound { arena } := Reachable.sound ⟨arena, .refl⟩
  obtain ⟨entry, (visited : parser.visit _ parser.rootFrame _ _ _ = _), report⟩ :=
    unmatched_of_parse refused
  have finished : (parser.visit parser.fuel parser.rootFrame parser.grammar.root ⟨0, parser.input⟩
      { arena }).1 = recorded entry := by rw [visited]
  have done := (congrArg Outcome.isSettled finished).trans (isSettled_recorded entry)
  subst evaluated
  have stop := (sound.shows_settled inside done settled).reached_eq
  have tried : parser.grammar.Tries parser.grammar.root parser.rootFrame := .root
  have reported := reports_visit parser parser.fuel inside sound tried finished
    ⟨fuel, 0, settled, rfl⟩
  rw [finished] at stop
  rw [visited] at reported
  rw [report, stop]
  constructor
  · obtain ⟨kept, part, noted⟩ := reported.partly
    exact ⟨kept, part, unmatched_eq noted _⟩
  · intro steady
    have fresh : parser.Noted { arena } := fun _ found => by simp at found
    exact unmatched_eq (reported.fully steady fresh).2 _

/-- What a parse from the start reports if it does not match. Plain evaluation of the root settles.
The report is what some of the expectations that it misses amount to, given where the root match
ended; and if the grammar is steady, what all of them amount to. -/
theorem unmatched_report (parser : Parser) {arena : Arena} {position : Nat} {expected : String}
    {after : ParserState}
    (refused : parser.parse { arena } = (.error (.unmatched position expected), after)) :
    let trace := fun fuel => Plain.visit parser.grammar .unlimited fuel 0 parser.rootFrame
      parser.grammar.root ⟨0, parser.input⟩
    (∃ fuel, (trace fuel).1.isSettled) ∧
      ∀ fuel, (trace fuel).1.isSettled →
        (∃ kept, kept.Sublist (trace fuel).2 ∧
          .unmatched position expected = diagnosis kept (trace fuel).1.reached) ∧
        (parser.grammar.Steady →
          .unmatched position expected = diagnosis (trace fuel).2 (trace fuel).1.reached) := by
  intro trace
  have sound : parser.Sound { arena } := Reachable.sound ⟨arena, .refl⟩
  obtain ⟨entry, (visited : parser.visit _ parser.rootFrame _ _ _ = _), _⟩ :=
    unmatched_of_parse refused
  have done := (congrArg (·.1.isSettled) visited).trans (isSettled_recorded entry)
  refine ⟨sound.exists_settled (.start parser.input) done 0 parser.rootFrame, ?_⟩
  exact fun fuel => reported_of_parse refused rfl

section Runs

attribute [local simp] visit_of_miss visit_of_hit noted recorded remember attempt raise lower
  perform finish Script.ofAtom Script.piece Script.sequence Script.choice Script.repetition
  Script.endRepetition Script.check Atom.levels storeList expect belowMost matchLiteral stripFront?
  Cursor.advance Text.byteLength ParserState.frame Frame.inside Frame.within Limits.refusesDepth
  Std.HashMap.getElem_insert

/-- Two options that begin with the same rule, the second of which finds it in the memo. -/
def retried : Parser where
  grammar := ⟨#[.rule 10, .literal "y", .sequence [0, 1], .rule 10, .literal "z", .sequence [3, 4],
    .choice [2, 5], .literal "x", .literal "p", .repetition 8 0 (some 1), .sequence [7, 9]], 6,
    .ofList [("root", 6), ("a", 10)]⟩
  input := ['x', 'w']

def retriedRules : Rules :=
  [("root", .choice [.sequence [.reference "a", .literal "y"],
    .sequence [.reference "a", .literal "z"]]),
   ("a", .sequence [.literal "x", .optional (.literal "p")])]

/-- What the rule expects is reported once, though plain evaluation misses it in both options. -/
theorem retried_report :
    let trace := Plain.visit retried.grammar .unlimited 9 0 retried.rootFrame 6 ⟨0, ['x', 'w']⟩
    let report := ParseError.unmatched 1 "\"p\" in a or \"y\" in root or \"z\" in root"
    (retried.parse {}).1 = .error report ∧ report = diagnosis trace.2 trace.1.reached := by
  intro trace report
  have parsed : (retried.parse {}).1 = .error report := by
    have small : retried.limits.refusesSize (Text.byteLength retried.input) = false := rfl
    obtain ⟨fuel, enough⟩ : ∃ fuel, retried.fuel = fuel + 9 := ⟨34025, rfl⟩
    have outer : retried.grammar.contextName? 6 = some "root" := by decide +kernel
    have inner : retried.grammar.contextName? 10 = some "a" := by decide +kernel
    have root : retried.grammar.root = 6 := rfl
    have atoms : retried.grammar.atoms = #[.rule 10, .literal "y", .sequence [0, 1], .rule 10,
      .literal "z", .sequence [3, 4], .choice [2, 5], .literal "x", .literal "p",
      .repetition 8 0 (some 1), .sequence [7, 9]] := rfl
    have input : retried.input = ['x', 'w'] := rfl
    have depth : retried.limits.depth = 1000 := rfl
    simp only [parse, parseFront, within_tryAtom, small, enough, root, outer]
    simp [inner, atoms, input, depth, report]
    rfl
  have built : Grammar.build retriedRules = .ok retried.grammar := by rfl
  have steady := Grammar.steady_of_build built (by decide)
  have refused : retried.parse {} = (.error report, (retried.parse {}).2) := Prod.ext parsed rfl
  exact ⟨parsed, ((unmatched_report retried refused).2 9 (by decide)).2 steady⟩

/-- A rule that is tried inside a lookahead and again outside it. -/
def peeked : Parser where
  grammar := ⟨#[.rule 7, .lookahead 0 true, .repetition 1 0 (some 1), .rule 7, .sequence [2, 3],
    .literal "x", .literal "y", .sequence [5, 6]], 4, .ofList [("root", 4), ("a", 7)]⟩
  input := ['x', 'z']

/-- The second character keeps the rule from matching, but nothing is reported of it: the rule
failed inside the lookahead first, and is found in the memo outside it. -/
theorem peeked_report :
    let trace := Plain.visit peeked.grammar .unlimited 9 0 peeked.rootFrame 4 ⟨0, ['x', 'z']⟩
    (peeked.parse {}).1 = .error (.unmatched 0 "rule in root") ∧ trace.1.isSettled ∧
      diagnosis trace.2 trace.1.reached = .unmatched 1 "\"y\" in a" := by
  intro trace
  refine ⟨?_, by decide, by decide⟩
  have small : peeked.limits.refusesSize (Text.byteLength peeked.input) = false := rfl
  obtain ⟨fuel, enough⟩ : ∃ fuel, peeked.fuel = fuel + 9 := ⟨25016, rfl⟩
  have outer : peeked.grammar.contextName? 4 = some "root" := by decide +kernel
  have inner : peeked.grammar.contextName? 7 = some "a" := by decide +kernel
  have root : peeked.grammar.root = 4 := rfl
  have atoms : peeked.grammar.atoms = #[.rule 7, .lookahead 0 true, .repetition 1 0 (some 1),
    .rule 7, .sequence [2, 3], .literal "x", .literal "y", .sequence [5, 6]] := rfl
  have input : peeked.input = ['x', 'z'] := rfl
  have depth : peeked.limits.depth = 1000 := rfl
  simp only [parse, parseFront, within_tryAtom, small, enough, root, outer]
  simp [inner, atoms, input, depth]
  rfl

end Runs

end Parser

end Reflow
