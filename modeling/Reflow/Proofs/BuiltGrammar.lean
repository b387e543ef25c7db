import Reflow.Document.Reading
import Reflow.Proofs.GrammarTable
import Reflow.Proofs.MemoTransparency
import Reflow.Proofs.Reader

/-!
# Grammars built from rules

Building a grammar puts the atoms of every expression in their places in a table. So a parse with
the built grammar does what the rules say: if the references from the root end after a number of
levels and all patterns compile, a parse succeeds exactly where the root rule reads the whole input
(`parse_build`), and neither the memo nor a limit has a say in it.
-/

namespace Reflow

open List Expr Plain Option

/-- The expression that a name stands for: the last one it was given to. -/
def bodyOf? (rules : Rules) (name : String) : Option Expr :=
  rules.reverse.lookup name

/-- What a rule reads, if references nest at most to a number of levels. -/
def readRule (rules : Rules) : Nat → String → Reader
  | 0, _ => fun _ => none
  | levels + 1, name =>
    match bodyOf? rules name with
    | some body => body.read (readRule rules levels)
    | none => fun _ => none

variable {rules : Rules} {name root : String} {body : Expr} {levels : Nat}

theorem readRule_of_defined (defined : bodyOf? rules name = some body) (levels : Nat) :
    readRule rules (levels + 1) name = body.read (readRule rules levels) := by
  rw [readRule, defined]

theorem splits_readRule (rules : Rules) (levels : Nat) (name : String) :
    (readRule rules levels name).Splits := by
  induction levels generalizing name with
  | zero => exact Reader.splits_none
  | succ levels ih =>
    unfold readRule
    split
    · exact splits_read ih _
    · exact Reader.splits_none

namespace Expr

/-- Whether references nest at most to a number of levels. -/
def closedWithin (rules : Rules) : Nat → Expr → Bool
  | 0, expr => expr.references.isEmpty
  | levels + 1, expr =>
    expr.references.all fun name =>
      match bodyOf? rules name with
      | some body => closedWithin rules levels body
      | none => false

/-- A name is closed if its body is, with one level less. -/
theorem closedWithin_reference (closed : (reference name).closedWithin rules (levels + 1)) :
    ∃ body, bodyOf? rules name = some body ∧ body.closedWithin rules levels := by
  simp only [closedWithin, references, all_cons, all_nil, Bool.and_true] at closed
  split at closed
  · next body defined => exact ⟨body, defined, closed⟩
  · cases closed

/-- The references of a closed expression are closed. -/
theorem closedWithin_of_mem {expr : Expr} (closed : expr.closedWithin rules levels)
    (member : name ∈ expr.references) : (reference name).closedWithin rules levels := by
  cases levels with
  | zero =>
    rw [List.isEmpty_iff.mp closed] at member
    cases member
  | succ levels =>
    have resolved := all_eq_true.mp closed name member
    simpa only [closedWithin, references, all_cons, all_nil, Bool.and_true]

mutual

def patterns : Expr → List String
  | literal _ | reference _ => []
  | regex pattern => [pattern]
  | sequence parts => allPatterns parts
  | choice options => allPatterns options
  | repetition inner _ _ | capture inner _ | lookahead inner _ | flat inner => inner.patterns

def allPatterns : List Expr → List String
  | [] => []
  | first :: rest => first.patterns ++ allPatterns rest

end

end Expr

/-! ## Places in the table -/

def Placed (table : List Atom) (start : Nat) (atoms : List Atom) : Prop :=
  ∃ before after, table = before ++ atoms ++ after ∧ before.length = start

namespace Placed

variable {table : List Atom} {start : Nat} {first second : List Atom}

theorem left (placed : Placed table start (first ++ second)) : Placed table start first := by
  obtain ⟨before, after, rfl, size⟩ := placed
  exact ⟨before, second ++ after, by simp, size⟩

theorem right (placed : Placed table start (first ++ second)) :
    Placed table (start + first.length) second := by
  obtain ⟨before, after, rfl, size⟩ := placed
  exact ⟨before ++ first, after, by simp, by simp [size]⟩

theorem length_le (placed : Placed table start first) : first.length ≤ table.length := by
  obtain ⟨before, after, rfl, size⟩ := placed
  simp only [length_append]
  omega

variable {atoms : Array Atom} {atom : Atom} {target : String → Nat}

theorem getElem? (placed : Placed atoms.toList start [atom]) : atoms[start]? = some atom := by
  obtain ⟨before, after, split, rfl⟩ := placed
  rw [← Array.getElem?_toList, split]
  simp

/-- The last atom of an expression is its own. -/
theorem own {inner : Expr}
    (placed : Placed atoms.toList start (inner.atoms target start ++ [atom])) :
    atoms[start + (inner.size + 1) - 1]? = some atom := by
  have last := placed.right.getElem?
  rwa [length_atoms] at last

theorem ownAll {parts : List Expr}
    (placed : Placed atoms.toList start (allAtoms target start parts ++ [atom])) :
    atoms[start + (sizes parts + 1) - 1]? = some atom := by
  have last := placed.right.getElem?
  rwa [length_allAtoms] at last

end Placed

/-- A match takes the whole input if nothing is left of it. -/
theorem Reader.Splits.ofReading_whole {reader : Reader} (splits : reader.Splits)
    {input : Text} {tree : Tree} :
    (∃ stop, Outcome.ofReading ⟨0, input⟩ (reader input) = .matched tree stop ∧
      stop.offset = Text.byteLength input) ↔
      ∃ part, reader input = some (part, []) ∧ tree = part.treeAt 0 := by
  cases reading : reader input with
  | none => simp [Outcome.ofReading]
  | some found =>
    obtain ⟨part, rest⟩ := found
    have whole := splits.split reading
    constructor
    · rintro ⟨stop, same, ended⟩
      cases same
      have size := congrArg Text.byteLength whole
      simp only [Cursor.advance, Text.byteLength_append] at ended size
      have noneLeft : Text.byteLength rest = 0 := by omega
      obtain rfl := Text.byteLength_eq_zero noneLeft
      exact ⟨part, rfl, rfl⟩
    · rintro ⟨_, same, rfl⟩
      cases same
      refine ⟨_, rfl, ?_⟩
      rw [whole]
      simp [Cursor.advance]

namespace Expr

variable (chained : List Reader → Prop) (bounded : Nat → Option Nat → Prop) (rule : String → Reader)

mutual

/-- All sequences in an expression meet one condition and all repetitions another one. -/
def Meets : Expr → Prop
  | literal _ | regex _ | reference _ => True
  | sequence parts => AllMeet parts ∧ chained (readEach rule parts)
  | choice options => AllMeet options
  | repetition inner least most => inner.Meets ∧ bounded least most
  | capture inner _ | lookahead inner _ | flat inner => inner.Meets

def AllMeet : List Expr → Prop
  | [] => True
  | first :: rest => first.Meets ∧ AllMeet rest

end

mutual

theorem meets_true : (expr : Expr) → expr.Meets (fun _ => True) (fun _ _ => True) rule
  | literal _ | regex _ | reference _ => trivial
  | sequence parts => ⟨allMeet_true parts, trivial⟩
  | choice options => allMeet_true options
  | repetition inner _ _ => ⟨meets_true inner, trivial⟩
  | capture inner _ | lookahead inner _ | flat inner => meets_true inner

theorem allMeet_true : (exprs : List Expr) →
    AllMeet (fun _ => True) (fun _ _ => True) rule exprs
  | [] => trivial
  | first :: rest => ⟨meets_true first, allMeet_true rest⟩

end

end Expr

/-- Every pattern in some rules compiles. -/
abbrev PatternsCompile (rules : Rules) : Prop :=
  ∀ rule ∈ rules, ∀ pattern ∈ rule.2.patterns, (Regex.anchored? pattern).isSome

namespace Grammar

/-! ## Visiting an expression -/

/-- A property of visits, each beside a reader, that the parts of an expression hand on to the
whole. Sequences and repetitions may have to meet a condition for that. -/
structure Inherited (grammar : Grammar) (limits : Limits)
    (holds : (Cursor → Plain.Trace) → Reader → Prop) (chained : List Reader → Prop)
    (bounded : Nat → Option Nat → Prop) : Prop where
  literal : ∀ frame text what,
    holds (fun cursor => piece frame cursor (matchLiteral text cursor) what) (.literal text)
  machine : ∀ frame machine what,
    holds (fun cursor => piece frame cursor (matchRegex machine cursor) what)
      (.machine machine)
  sequence : ∀ {visit : Nat → Cursor → Plain.Trace} {atoms readers},
    Forall₂ (fun atom => holds (visit atom)) atoms readers → chained readers →
      holds (fun cursor => sequence visit cursor atoms [] cursor) (.sequence readers)
  choice : ∀ {visit : Nat → Cursor → Plain.Trace} {atoms readers},
    Forall₂ (fun atom => holds (visit atom)) atoms readers →
      holds (fun cursor => choice visit cursor atoms) (.choice readers)
  repetition : ∀ {visit reader least most}, holds visit reader → bounded least most →
    holds (fun cursor => repetition visit cursor least most (cursor.rest.length + 1) [] cursor)
      (.repetition reader least most)
  capture : ∀ {visit reader} label, holds visit reader →
    holds (fun cursor => mapTree (fun tree stop => .field (cursor.spanTo stop) label tree)
      (visit cursor)) (.map (.field label) reader)
  flat : ∀ {visit reader}, holds visit reader →
    holds (fun cursor => mapTree (fun _ stop => .text (cursor.spanTo stop)) (visit cursor))
      (.map (fun part => .text part.chars) reader)
  /-- What a lookahead tries is tried in silence. -/
  lookahead : ∀ {fuel depth atom reader} (frame : Frame) positive what,
    let visit := visit grammar limits fuel depth { frame with silent := true } atom
    holds visit reader →
      holds (fun cursor => lookahead frame cursor positive what (visit cursor))
        (.lookahead reader positive)

variable {depth fuel : Nat}

section Visiting

variable {grammar : Grammar} {limits : Limits} {target : String → Nat} {rule : String → Reader}
  {holds : (Cursor → Plain.Trace) → Reader → Prop} {chained : List Reader → Prop}
  {bounded : Nat → Option Nat → Prop}

/-- With enough fuel, the visits one level deeper have a property, beside what the references of an
expression read. -/
def Resolves (grammar : Grammar) (limits : Limits) (target : String → Nat)
    (holds : (Cursor → Plain.Trace) → Reader → Prop) (rule : String → Reader) (least depth : Nat)
    (names : List String) : Prop :=
  ∀ name ∈ names, limits.refusesDepth (depth + 1) = false ∧
    ∀ fuel frame, least ≤ fuel →
      holds (visit grammar limits fuel (depth + 1) frame (target name)) (rule name)

theorem Resolves.mono {least : Nat} {names fewer : List String}
    (resolves : Resolves grammar limits target holds rule least depth names)
    (subset : ∀ name ∈ fewer, name ∈ names) :
    Resolves grammar limits target holds rule least depth fewer :=
  fun name member => resolves name (subset name member)

theorem holds_visit {atom : Nat} {frame : Frame} {reader : Reader} (has : holds (fun cursor =>
      attempt grammar limits (visit grammar limits fuel) depth frame atom cursor) reader) :
    holds (visit grammar limits (fuel + 1) depth frame atom) reader := has

mutual

/-- Visiting the atom of an expression has what is handed on to it. -/
theorem holds_read (inherited : Inherited grammar limits holds chained bounded)
    {least depth : Nat} : (expr : Expr) → {start : Nat} →
    Placed grammar.atoms.toList start (expr.atoms target start) →
    (∀ pattern ∈ expr.patterns, (Regex.anchored? pattern).isSome) →
    Resolves grammar limits target holds rule least depth expr.references →
    expr.Meets chained bounded rule → {fuel : Nat} → least + expr.size ≤ fuel → (frame : Frame) →
    holds (visit grammar limits fuel depth frame (start + expr.size - 1)) (expr.read rule)
  | .literal text, start, placed, _, _, _, fuel + 1, _, frame => by
    have own := placed.getElem?
    refine holds_visit ?_
    simp only [attempt, Expr.size, Nat.add_sub_cancel, own, Expr.read]
    exact inherited.literal frame text _
  | .regex pattern, start, placed, compiles, _, _, fuel + 1, _, frame => by
    have own := placed.getElem?
    obtain ⟨machine, compiled⟩ :=
      isSome_iff_exists.mp (compiles pattern mem_cons_self)
    refine holds_visit ?_
    simp only [attempt, Expr.size, Nat.add_sub_cancel, own, compiled, Expr.read]
    exact inherited.machine frame machine _
  | .reference name, start, placed, _, resolves, _, fuel + 1, enough, frame => by
    have own := placed.getElem?
    simp only [Expr.size] at enough
    obtain ⟨allowed, found⟩ := resolves name mem_cons_self
    refine holds_visit ?_
    simp only [attempt, Expr.size, Nat.add_sub_cancel, own, allowed, Expr.read]
    exact found fuel _ (by omega)
  | .sequence parts, start, placed, compiles, resolves, meets, fuel + 1, enough, frame => by
    have own := placed.ownAll
    simp only [Expr.size] at enough
    have inner := holds_readEach inherited parts placed.left compiles resolves meets.1
      (show least + Expr.sizes parts ≤ fuel by omega) frame
    refine holds_visit ?_
    simp only [attempt, Expr.size, own, Expr.read]
    exact inherited.sequence inner meets.2
  | .choice options, start, placed, compiles, resolves, meets, fuel + 1, enough, frame => by
    have own := placed.ownAll
    simp only [Expr.size] at enough
    have inner := holds_readEach inherited options placed.left compiles resolves meets
      (show least + Expr.sizes options ≤ fuel by omega) frame
    refine holds_visit ?_
    simp only [attempt, Expr.size, own, Expr.read]
    exact inherited.choice inner
  | .repetition body low high, start, placed, compiles, resolves, meets, fuel + 1, enough,
      frame => by
      have own := placed.own
      simp only [Expr.size] at enough
      have inner := holds_read inherited body placed.left compiles resolves meets.1
        (show least + body.size ≤ fuel by omega) frame
      refine holds_visit ?_
      simp only [attempt, Expr.size, own, Expr.read]
      exact inherited.repetition inner meets.2
  | .capture body label, start, placed, compiles, resolves, meets, fuel + 1, enough, frame => by
    have own := placed.own
    simp only [Expr.size] at enough
    have inner := holds_read inherited body placed.left compiles resolves meets
      (show least + body.size ≤ fuel by omega) (frame.within (some label))
    refine holds_visit ?_
    simp only [attempt, Expr.size, own, Expr.read]
    exact inherited.capture label inner
  | .lookahead body positive, start, placed, compiles, resolves, meets, fuel + 1, enough,
      frame => by
      have own := placed.own
      simp only [Expr.size] at enough
      have inner := holds_read inherited body placed.left compiles resolves meets
        (show least + body.size ≤ fuel by omega) { frame with silent := true }
      refine holds_visit ?_
      simp only [attempt, Expr.size, own, Expr.read]
      exact inherited.lookahead frame positive _ inner
  | .flat body, start, placed, compiles, resolves, meets, fuel + 1, enough, frame => by
    have own := placed.own
    simp only [Expr.size] at enough
    have inner := holds_read inherited body placed.left compiles resolves meets
      (show least + body.size ≤ fuel by omega) frame
    refine holds_visit ?_
    simp only [attempt, Expr.size, own, Expr.read]
    exact inherited.flat inner
  | expr, _, _, _, _, _, 0, enough, _ => by
    have positive := expr.size_pos
    omega

theorem holds_readEach (inherited : Inherited grammar limits holds chained bounded)
    {least depth : Nat} : (exprs : List Expr) → {start : Nat} →
    Placed grammar.atoms.toList start (allAtoms target start exprs) →
    (∀ pattern ∈ allPatterns exprs, (Regex.anchored? pattern).isSome) →
    Resolves grammar limits target holds rule least depth (allReferences exprs) →
    Expr.AllMeet chained bounded rule exprs → {fuel : Nat} → least + sizes exprs ≤ fuel →
    (frame : Frame) →
    Forall₂ (fun atom => holds (visit grammar limits fuel depth frame atom))
      (tops start exprs) (readEach rule exprs)
  | [], _, _, _, _, _, _, _, _ => .nil
  | first :: rest, start, placed, compiles, resolves, meets, fuel, enough, frame => by
    simp only [sizes] at enough
    have behind := placed.right
    rw [length_atoms] at behind
    refine .cons ?_ ?_
    · refine holds_read inherited first placed.left (fun pattern member => ?_)
        (resolves.mono fun name member => ?_) meets.1 (by omega) frame
      · exact compiles pattern (mem_append_left _ member)
      · exact mem_append_left _ member
    · refine holds_readEach inherited rest behind (fun pattern member => ?_)
        (resolves.mono fun name member => ?_) meets.2 (by omega) frame
      · exact compiles pattern (mem_append_right _ member)
      · exact mem_append_right _ member

end

/-- Visiting what has been built of an expression reads what the expression reads. -/
theorem inherited_follows (grammar : Grammar) (limits : Limits) :
    Inherited grammar limits Follows (fun _ => True) fun _ _ => True where
  literal := piece_literal
  machine := piece_machine
  sequence := fun each _ => follows_sequence each
  choice := follows_choice
  repetition := fun inner _ => follows_repetition inner _ _
  capture := fun label inner => follows_map inner
    (fun cursor tree stop => .field (cursor.spanTo stop) label tree) (.field label)
    (fun _ _ _ => by rw [Part.treeAt]; rfl) fun _ => by rw [Part.chars]
  flat := fun inner => follows_map inner (fun cursor _ stop => .text (cursor.spanTo stop))
    (fun part => .text part.chars) (fun _ _ _ => by rw [Part.treeAt]; rfl)
    fun _ => by rw [Part.chars]
  lookahead := fun frame positive what inner => follows_lookahead inner frame positive what

end Visiting

/-! ## Visiting a rule -/

theorem lookup_tops (defined : bodyOf? rules name = some body) (target : String → Nat)
    (start : Nat) :
    ∃ place before after,
      ((rules.map (·.1)).zip (tops start (rules.map (·.2)))).reverse.lookup name =
        some (place + body.size - 1) ∧
      allAtoms target start (rules.map (·.2)) = before ++ body.atoms target place ++ after ∧
      start + before.length = place := by
  induction rules generalizing start with
  | nil => cases defined
  | cons rule rest ih =>
    obtain ⟨label, expr⟩ := rule
    simp only [bodyOf?, reverse_cons, lookup_append] at defined
    simp only [map_cons, tops, zip_cons_cons, reverse_cons, lookup_append, allAtoms]
    cases later : rest.reverse.lookup name with
    | some found =>
      rw [later, some_or] at defined
      cases defined
      obtain ⟨place, before, after, top, atoms, size⟩ := ih later (start + expr.size)
      refine ⟨place, expr.atoms target start ++ before, after, ?_, ?_, ?_⟩
      · rw [top, some_or]
      · rw [atoms]
        simp only [append_assoc]
      · rw [length_append, length_atoms]
        omega
    | none =>
      have absent : ((rest.map (·.1)).zip
          (tops (start + expr.size) (rest.map (·.2)))).reverse.lookup name = none := by
        rw [lookup_eq_none_iff] at later ⊢
        intro pair member
        have named := (of_mem_zip (mem_reverse.mp member)).1
        obtain ⟨rule, inside, same⟩ := mem_map.mp named
        rw [← same]
        exact later rule (mem_reverse.mpr inside)
      rw [later, none_or] at defined
      rw [absent, none_or]
      simp only [lookup_cons, lookup_nil] at defined ⊢
      cases found : name == label with
      | false => simp [found] at defined
      | true =>
        simp only [found, some.injEq] at defined
        subst defined
        exact ⟨start, [], _, rfl, rfl, rfl⟩

/-- The name of a first rule stands for a body, maybe for that of a later rule. -/
theorem exists_bodyOf?_head (rule : String × Expr) (others : Rules) :
    ∃ body, bodyOf? (rule :: others) rule.1 = some body := by
  rw [← ne_none_iff_exists']
  intro missing
  rw [bodyOf?, lookup_eq_none_iff] at missing
  have other := missing rule (mem_reverse.mpr mem_cons_self)
  simp at other

section Rules

variable {rules : Rules} {grammar : Grammar} {limits : Limits}

/-- Building knows the names that stand for a body. -/
theorem known_of_defined (defined : bodyOf? rules name = some body) :
    ((ruleMap rules).get? name).isSome := by
  obtain ⟨place, _, _, top, _⟩ := lookup_tops defined (targetOf rules) 0
  rw [ruleMap, SortedMap.get?_ofList, top]
  rfl

theorem build_eq_ok (built : build rules = .ok grammar) :
    grammar.atoms.toList = allAtoms (targetOf rules) 0 (rules.map (·.2)) ∧
      rules.head?.map (fun rule => targetOf rules rule.1) = some grammar.root := by
  obtain ⟨-, ⟨root, others, rfl, rfl⟩, -⟩ := (Builder.finish_eq_ok_iff (.refl _)).mp built
  exact ⟨rfl, rfl⟩

/-- The body of a rule stands in the table, and its name was replaced by its own atom. -/
theorem placed_of_build (built : build rules = .ok grammar)
    (defined : bodyOf? rules name = some body) :
    ∃ start, Placed grammar.atoms.toList start (body.atoms (targetOf rules) start) ∧
      targetOf rules name = start + body.size - 1 := by
  obtain ⟨place, before, after, top, atoms, size⟩ := lookup_tops defined (targetOf rules) 0
  refine ⟨place, ⟨before, after, ?_, by omega⟩, ?_⟩
  · rw [(build_eq_ok built).1, atoms]
  · rw [targetOf, ruleMap, SortedMap.get?_ofList, top, getD_some]

theorem targetOf_root (built : build rules = .ok grammar)
    (first : rules.head?.map (·.1) = some root) : targetOf rules root = grammar.root := by
  have chosen := (build_eq_ok built).2
  obtain ⟨rule, head, rfl⟩ := map_eq_some_iff.mp first
  rw [head] at chosen
  exact some.inj chosen

theorem mem_of_bodyOf? (defined : bodyOf? rules name = some body) : (name, body) ∈ rules := by
  obtain ⟨before, after, whole, _⟩ := lookup_eq_some_iff.mp defined
  rw [← mem_reverse, whole]
  simp

section Compiled

variable (built : build rules = .ok grammar)
  (compiles : PatternsCompile rules)

include built compiles

section Handed

variable {holds : (Cursor → Plain.Trace) → Reader → Prop} {chained : List Reader → Prop}
  {bounded : Nat → Option Nat → Prop}
  (inherited : Inherited grammar limits holds chained bounded)
  (meets : ∀ levels, ∀ rule ∈ rules, rule.2.Meets chained bounded (readRule rules levels))

include inherited meets

theorem holds_body {levels least : Nat} (defined : bodyOf? rules name = some body)
    (resolves : Resolves grammar limits (targetOf rules) holds (readRule rules levels) least depth
      body.references) (enough : least + grammar.atoms.size ≤ fuel) (frame : Frame) :
    holds (visit grammar limits fuel depth frame (targetOf rules name))
      (readRule rules (levels + 1) name) := by
  obtain ⟨start, placed, top⟩ := placed_of_build built defined
  have member := mem_of_bodyOf? defined
  have reads : readRule rules (levels + 1) name = body.read (readRule rules levels) := by
    rw [readRule, defined]
  have size : body.size ≤ grammar.atoms.size := by
    have fits := placed.length_le
    rwa [length_atoms, Array.length_toList] at fits
  rw [top, reads]
  exact holds_read inherited body placed (compiles _ member) resolves (meets levels _ member)
    (by omega) frame

/-- Visiting a rule has what is handed on, given fuel for the whole table at every level. -/
theorem holds_rule (levels : Nat) (closed : (reference name).closedWithin rules (levels + 1))
    (enough : (levels + 1) * grammar.atoms.size ≤ fuel)
    (shallow : ∀ level ≤ depth + levels, limits.refusesDepth level = false) (frame : Frame) :
    holds (visit grammar limits fuel depth frame (targetOf rules name))
      (readRule rules (levels + 1) name) := by
  induction levels generalizing name fuel depth frame with
  | zero =>
    obtain ⟨body, defined, closed⟩ := closedWithin_reference closed
    refine holds_body built compiles inherited meets defined (fun inner member => ?_)
      (show 0 + grammar.atoms.size ≤ fuel by omega) frame
    have open_ := closedWithin_of_mem closed member
    cases open_
  | succ levels ih =>
    obtain ⟨body, defined, closed⟩ := closedWithin_reference closed
    refine holds_body built compiles inherited meets defined (fun inner member => ⟨?_, ?_⟩)
      (show (levels + 1) * grammar.atoms.size + grammar.atoms.size ≤ fuel by
        rwa [Nat.succ_mul] at enough) frame
    · exact shallow _ (by omega)
    · intro fuel' frame' enough'
      exact ih (closedWithin_of_mem closed member) enough'
        (fun level below => shallow level (by omega)) frame'

end Handed

/-- Visiting a rule reads what the rule reads, given fuel for the whole table at every level. -/
theorem follows_rule (levels : Nat) (closed : (reference name).closedWithin rules (levels + 1))
    (enough : (levels + 1) * grammar.atoms.size ≤ fuel)
    (shallow : ∀ level ≤ depth + levels, limits.refusesDepth level = false) (frame : Frame) :
    Follows (visit grammar limits fuel depth frame (targetOf rules name))
      (readRule rules (levels + 1) name) :=
  holds_rule built compiles (inherited_follows _ _) (fun _ _ _ => meets_true _ _) levels closed
    enough shallow frame

section First

variable (first : rules.head?.map (·.1) = some root)
  (closed : (reference root).closedWithin rules (levels + 1)) (few : levels ≤ 1000)

include first closed few

/-- The root settles within the fuel of a parse, and gives what the root rule reads. -/
theorem follows_root
        (input : Text) :
    (levels + 1) * grammar.atoms.size ≤ Parser.fuel { grammar, input } ∧
      (visit grammar {} ((levels + 1) * grammar.atoms.size) 0 {} grammar.root
        ⟨0, input⟩).1 = .ofReading ⟨0, input⟩ (readRule rules (levels + 1) root input) := by
  have shallow : ∀ level ≤ 0 + levels, Limits.refusesDepth {} level = false := by
    intro level below
    simp [Limits.refusesDepth]
    omega
  have enough : (levels + 1) * grammar.atoms.size ≤ Parser.fuel { grammar, input } := by
    refine Nat.mul_le_mul (by show levels + 1 ≤ 1000 + 1; omega) ?_
    exact Nat.le_succ_of_le (Nat.le_mul_of_pos_right _ (Nat.succ_pos _))
  have reads := follows_rule built compiles levels closed (Nat.le_refl _) shallow {} ⟨0, input⟩
  rw [targetOf_root built first] at reads
  exact ⟨enough, reads⟩

/-- A parse with a built grammar succeeds exactly where the root rule reads the whole input, and its
tree is that of what was read. -/
theorem parse_build
        {input : Text} {tree : Tree} :
    grammar.parse input = .ok tree ↔ Text.byteLength input ≤ inputLimit ∧
      ∃ part, readRule rules (levels + 1) root input = some (part, []) ∧ tree = part.treeAt 0 := by
  obtain ⟨enough, reads⟩ := follows_root built compiles first closed few input
  have splits := splits_readRule rules (levels + 1) root
  rw [parse_eq_ok_iff enough (by rw [reads]; exact Outcome.isSettled_ofReading _ _), reads]
  exact and_congr_right fun small => splits.ofReading_whole

end First

end Compiled

end Rules

end Grammar

theorem Grammar.exists_of_build (accepted : (Grammar.build rules).toBool) :
    ∃ built, Grammar.build rules = .ok built := by
  cases same : Grammar.build rules with
  | ok built => exact ⟨built, rfl⟩
  | error fault => rw [same] at accepted; cases accepted

/-- Reading a document with rules is reading off the parts that the root rule reads. -/
theorem Document.readWith_build {α : Type} {grammar : Grammar}
    (built : Grammar.build rules = .ok grammar)
    (compiles : PatternsCompile rules) (first : rules.head?.map (·.1) = some root)
    (closed : (reference root).closedWithin rules (levels + 1)) (few : levels ≤ 1000)
    {read : Tree → α} {text : Text} {value : α} :
    readWith (Grammar.build rules) read text = .ok value ↔
      Text.byteLength text ≤ inputLimit ∧
        ∃ part, readRule rules (levels + 1) root text = some (part, []) ∧
          read (part.treeAt 0) = value := by
  have parses : ∀ tree, grammar.parse text = .ok tree ↔ _ := fun tree =>
    Grammar.parse_build built compiles first closed few
  simp only [readWith, built]
  cases parsed : grammar.parse text with
  | error error =>
    constructor
    · intro impossible
      cases impossible
    · rintro ⟨small, part, found, _⟩
      rw [(parses _).mpr ⟨small, part, found, rfl⟩] at parsed
      cases parsed
  | ok tree =>
    obtain ⟨small, part, found, rfl⟩ := (parses tree).mp parsed
    constructor
    · intro same
      exact ⟨small, part, found, Except.ok.inj same⟩
    · rintro ⟨_, part', found', rfl⟩
      rw [found] at found'
      cases found'
      rfl

end Reflow
