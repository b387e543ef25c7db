import Mathlib.Data.List.Nodup
import Mathlib.Data.List.Perm.Basic
import Reflow.Grammar.Builder

/-!
# Tables of atoms

What a builder appends for an expression does not depend on what the table already holds, apart from
where it starts: the atoms with their placeholders, and the places of the references that wait
(`Expr.build_eq`). No two references wait at one place, so they may be filled in in any order, and
what comes out is the table in which every reference points to the atom of its rule
(`Builder.finish_eq_ok_iff`).
-/

namespace Reflow

open List Expr Builder

namespace Expr

/-! ## What an expression adds to a table -/

mutual

def size : Expr → Nat
  | literal _ | regex _ | reference _ => 1
  | sequence parts => sizes parts + 1
  | choice options => sizes options + 1
  | repetition inner _ _ | capture inner _ | lookahead inner _ | flat inner => inner.size + 1

def sizes : List Expr → Nat
  | [] => 0
  | first :: rest => first.size + sizes rest

end

/-- The index of each expression's own atom when the atoms of all of them start at an index. -/
def tops (start : Nat) : List Expr → List Nat
  | [] => []
  | first :: rest => (start + first.size - 1) :: tops (start + first.size) rest

mutual

/-- The atoms of an expression, numbered from an index on. The last one is the expression's own. -/
def atoms (target : String → Nat) (start : Nat) : Expr → List Atom
  | literal text => [.literal text]
  | regex pattern => [.regex pattern]
  | reference rule => [.rule (target rule)]
  | sequence parts => allAtoms target start parts ++ [.sequence (tops start parts)]
  | choice options => allAtoms target start options ++ [.choice (tops start options)]
  | repetition inner least most =>
    inner.atoms target start ++ [.repetition (start + inner.size - 1) least most]
  | capture inner label => inner.atoms target start ++ [.capture label (start + inner.size - 1)]
  | lookahead inner positive =>
    inner.atoms target start ++ [.lookahead (start + inner.size - 1) positive]
  | flat inner => inner.atoms target start ++ [.flat (start + inner.size - 1)]

def allAtoms (target : String → Nat) (start : Nat) : List Expr → List Atom
  | [] => []
  | first :: rest => first.atoms target start ++ allAtoms target (start + first.size) rest

end

mutual

/-- The references of an expression whose atoms start at an index, with their places, left to
right. -/
def waiting (start : Nat) : Expr → List (Nat × String)
  | literal _ | regex _ => []
  | reference rule => [(start, rule)]
  | sequence parts => allWaiting start parts
  | choice options => allWaiting start options
  | repetition inner _ _ | capture inner _ | lookahead inner _ | flat inner => inner.waiting start

def allWaiting (start : Nat) : List Expr → List (Nat × String)
  | [] => []
  | first :: rest => first.waiting start ++ allWaiting (start + first.size) rest

end

mutual

/-- The names an expression refers to, left to right. -/
def references : Expr → List String
  | literal _ | regex _ => []
  | reference rule => [rule]
  | sequence parts => allReferences parts
  | choice options => allReferences options
  | repetition inner _ _ | capture inner _ | lookahead inner _ | flat inner => inner.references

def allReferences : List Expr → List String
  | [] => []
  | first :: rest => first.references ++ allReferences rest

end

theorem size_pos (expr : Expr) : 0 < expr.size := by
  cases expr <;> simp [size]

mutual

theorem length_atoms (target : String → Nat) (start : Nat) :
    (expr : Expr) → (expr.atoms target start).length = expr.size
  | literal _ | regex _ | reference _ => rfl
  | sequence parts | choice parts => by simp [atoms, size, length_allAtoms target start parts]
  | repetition inner _ _ | capture inner _ | lookahead inner _ | flat inner => by
    simp [atoms, size, length_atoms target start inner]

theorem length_allAtoms (target : String → Nat) (start : Nat) :
    (exprs : List Expr) → (allAtoms target start exprs).length = sizes exprs
  | [] => rfl
  | first :: rest => by
    simp [allAtoms, sizes, length_atoms target start first,
      length_allAtoms target (start + first.size) rest]

end

mutual

theorem map_waiting (start : Nat) : (expr : Expr) → (expr.waiting start).map (·.2) = expr.references
  | literal _ | regex _ | reference _ => rfl
  | sequence parts | choice parts => map_allWaiting start parts
  | repetition inner _ _ | capture inner _ | lookahead inner _ | flat inner =>
    map_waiting start inner

/-- What waits are the references. -/
theorem map_allWaiting (start : Nat) :
    (exprs : List Expr) → (allWaiting start exprs).map (·.2) = allReferences exprs
  | [] => rfl
  | first :: rest => by
    rw [allWaiting, map_append, map_waiting start first, map_allWaiting _ rest, allReferences]

end

/-- Places one behind the other, within some bounds. -/
structure Ascend (start stop : Nat) (places : List (Nat × String)) : Prop where
  ordered : places.Pairwise (·.1 < ·.1)
  within : ∀ place ∈ places, start ≤ place.1 ∧ place.1 < stop

theorem Ascend.append {start middle stop : Nat} {first second : List (Nat × String)}
    (front : Ascend start middle first) (back : Ascend middle stop second) (low : start ≤ middle)
    (high : middle ≤ stop) : Ascend start stop (first ++ second) where
  ordered := by
    refine pairwise_append.mpr ⟨front.ordered, back.ordered, fun place here other later => ?_⟩
    have below := front.within place here
    have above := back.within other later
    omega
  within := by
    intro place member
    rcases mem_append.mp member with here | later
    · have below := front.within place here
      omega
    · have above := back.within place later
      omega

theorem Ascend.mono {start middle stop : Nat} {places : List (Nat × String)}
    (ascend : Ascend start middle places) (further : middle ≤ stop) : Ascend start stop places where
  ordered := ascend.ordered
  within place member := by
    have inside := ascend.within place member
    omega

mutual

theorem ascend_waiting (start : Nat) :
    (expr : Expr) → Ascend start (start + expr.size) (expr.waiting start)
  | literal _ | regex _ => ⟨.nil, by simp [waiting]⟩
  | reference _ => ⟨by simp [waiting], by simp [waiting, size]⟩
  | sequence parts | choice parts => (ascend_allWaiting start parts).mono (by simp [size])
  | repetition inner _ _ | capture inner _ | lookahead inner _ | flat inner =>
    (ascend_waiting start inner).mono (by simp [size])

/-- No two references wait at one place. -/
theorem ascend_allWaiting (start : Nat) :
    (exprs : List Expr) → Ascend start (start + sizes exprs) (allWaiting start exprs)
  | [] => ⟨.nil, by simp [allWaiting]⟩
  | first :: rest => by
    have back := ascend_allWaiting (start + first.size) rest
    rw [Nat.add_assoc] at back
    exact (ascend_waiting start first).append back (by omega) (by rw [sizes]; omega)

end

end Expr

/-! ## What a builder does -/

namespace Builder

/-- Appends atoms and references that wait. -/
def extend (builder : Builder) (atoms : List Atom) (pending : List (Nat × String)) : Builder :=
  { builder with
    atoms := builder.atoms ++ atoms.toArray, pending := builder.pending ++ pending }

theorem add_extend (builder : Builder) (atoms : List Atom) (pending : List (Nat × String))
    (atom : Atom) : (builder.extend atoms pending).add atom =
      (builder.atoms.size + atoms.length, builder.extend (atoms ++ [atom]) pending) := by
  simp [add, extend]

theorem size_extend (builder : Builder) (atoms : List Atom) (pending : List (Nat × String)) :
    (builder.extend atoms pending).atoms.size = builder.atoms.size + atoms.length := by
  simp [extend]

theorem extend_extend (builder : Builder) (atoms more : List Atom)
    (pending later : List (Nat × String)) :
    (builder.extend atoms pending).extend more later =
      builder.extend (atoms ++ more) (pending ++ later) := by
  simp [extend]

end Builder

/-- A reference points to the first atom until its rule is known. -/
def nowhere (_ : String) : Nat := 0

namespace Expr

mutual

/-- Building an expression appends its atoms, with placeholders, and the references that wait. -/
theorem build_eq : (expr : Expr) → (builder : Builder) → expr.build builder =
    (builder.atoms.size + expr.size - 1,
      builder.extend (expr.atoms nowhere builder.atoms.size) (expr.waiting builder.atoms.size))
  | literal _, builder | regex _, builder => by
    simp [build, add, extend, atoms, waiting, size]
  | reference _, builder => by
    simp [build, addReference, add, extend, atoms, waiting, size, nowhere]
  | sequence parts, builder | choice parts, builder => by
    rw [build, buildAll_eq parts]
    dsimp only
    rw [add_extend, length_allAtoms]
    rfl
  | repetition inner _ _, builder | capture inner _, builder | lookahead inner _, builder
  | flat inner, builder => by
    rw [build, build_eq inner]
    dsimp only
    rw [add_extend, length_atoms]
    rfl

theorem buildAll_eq : (exprs : List Expr) → (builder : Builder) → buildAll exprs builder =
    (tops builder.atoms.size exprs, builder.extend (allAtoms nowhere builder.atoms.size exprs)
      (allWaiting builder.atoms.size exprs))
  | [], builder => by simp [buildAll, tops, allAtoms, allWaiting, extend]
  | first :: rest, builder => by
    rw [buildAll, build_eq first]
    dsimp only
    rw [buildAll_eq rest]
    dsimp only
    rw [size_extend, extend_extend, length_atoms]
    rfl

end

end Expr

namespace Builder

theorem foldl_rule (rules : Rules) (builder : Builder) :
    rules.foldl (fun builder rule => builder.rule rule.1 rule.2) builder =
      { builder.extend (allAtoms nowhere builder.atoms.size (rules.map (·.2)))
          (allWaiting builder.atoms.size (rules.map (·.2))) with
        rules := ((rules.map (·.1)).zip (tops builder.atoms.size (rules.map (·.2)))).foldl
          (fun map binding => map.insert binding.1 binding.2) builder.rules
        first := builder.first.or (rules.head?.map (·.1)) } := by
  induction rules generalizing builder with
  | nil => simp [allAtoms, allWaiting, extend]
  | cons rule rest ih =>
    rw [foldl_cons, ih, Builder.rule, build_eq]
    simp [extend, allAtoms, allWaiting, tops, length_atoms]

end Builder

namespace Grammar

/-- The atoms of named expressions, when every name stands for the last expression it was given
to. -/
def ruleMap (rules : Rules) : SortedMap Nat :=
  .ofList ((rules.map (·.1)).zip (tops 0 (rules.map (·.2))))

/-- The index that building puts in place of a name. -/
def targetOf (rules : Rules) (name : String) : Nat :=
  ((ruleMap rules).get? name).getD 0

/-- The table in which every reference points to the atom of its rule. -/
def tableOf (rules : Rules) (root : String) : Grammar where
  atoms := (allAtoms (targetOf rules) 0 (rules.map (·.2))).toArray
  root := targetOf rules root
  rules := ruleMap rules

end Grammar

namespace Builder

open Grammar

theorem ofRules_eq (rules : Rules) : ofRules rules =
    { atoms := (allAtoms nowhere 0 (rules.map (·.2))).toArray
      rules := ruleMap rules
      pending := allWaiting 0 (rules.map (·.2))
      first := rules.head?.map (·.1) } := by
  rw [ofRules, foldl_rule]
  simp [extend, ruleMap, SortedMap.ofList]

/-! ## References that are filled in -/

/-- Points the reference at a place to the atom of its name. -/
def fill (target : String → Nat) (atoms : Array Atom) (reference : Nat × String) : Array Atom :=
  atoms.modify reference.1 (.pointTo (target reference.2))

/-- Filling in turns some atoms into others, wherever they start in a table. -/
def Fills (target : String → Nat) (start : Nat) (pending : List (Nat × String))
    (atoms filled : List Atom) : Prop :=
  ∀ front back : List Atom, front.length = start →
    pending.foldl (fill target) (front ++ atoms ++ back).toArray = (front ++ filled ++ back).toArray

variable {target : String → Nat} {start : Nat}

theorem Fills.none (atoms : List Atom) : Fills target start [] atoms atoms :=
  fun _ _ _ => rfl

/-- The atoms of one expression, then those of others. -/
theorem Fills.append {pending later : List (Nat × String)} {atoms filled more others : List Atom}
    (first : Fills target start pending atoms filled) (same : atoms.length = filled.length)
    (second : Fills target (start + atoms.length) later more others) :
    Fills target start (pending ++ later) (atoms ++ more) (filled ++ others) := by
  intro front back size
  have early := first front (more ++ back) size
  have late := second (front ++ filled) back (by rw [length_append, size, same])
  simp only [append_assoc] at early late ⊢
  rw [foldl_append, early, late]

theorem Fills.concat {pending : List (Nat × String)} {atoms filled : List Atom}
    (inner : Fills target start pending atoms filled) (atom : Atom) :
    Fills target start pending (atoms ++ [atom]) (filled ++ [atom]) := by
  intro front back size
  simpa only [append_assoc] using inner front ([atom] ++ back) size

theorem fills_reference (rule : String) :
    Fills target start [(start, rule)] [.rule (nowhere rule)] [.rule (target rule)] := by
  rintro front back rfl
  simp [fill, Atom.pointTo, modify_eq_take_cons_drop]

end Builder

namespace Expr

open Builder

variable {target : String → Nat}

mutual

theorem fills_atoms : (expr : Expr) → {start : Nat} →
    Fills target start (expr.waiting start) (expr.atoms nowhere start) (expr.atoms target start)
  | literal _, _ | regex _, _ => .none _
  | reference rule, _ => fills_reference rule
  | sequence parts, _ | choice parts, _ => (fills_allAtoms parts).concat _
  | repetition inner _ _, _ | capture inner _, _ | lookahead inner _, _ | flat inner, _ =>
    (fills_atoms inner).concat _

theorem fills_allAtoms : (exprs : List Expr) → {start : Nat} →
    Fills target start (allWaiting start exprs) (allAtoms nowhere start exprs)
      (allAtoms target start exprs)
  | [], _ => .none []
  | first :: rest, start => by
    refine (fills_atoms first).append ?_ ?_
    · rw [length_atoms, length_atoms]
    · rw [length_atoms]
      exact fills_allAtoms rest

end

end Expr

namespace Builder

open Grammar

/-- References that wait at different places may be filled in in either order. -/
theorem fill_comm {target : String → Nat} {first second : Nat × String}
    (apart : first.1 ≠ second.1) (atoms : Array Atom) :
    fill target (fill target atoms first) second = fill target (fill target atoms second) first := by
  refine Array.ext_getElem? fun index => ?_
  simp only [fill, Array.getElem?_modify]
  split
  · next here =>
    have other : first.1 ≠ index := fun there => apart (there.trans here.symm)
    rw [if_neg other, if_neg other]
  · rfl

/-- In whatever order the references are filled in, the table is the same. -/
theorem foldl_fill {rules : Rules} {order : List (Nat × String)}
    (any : order.Perm (ofRules rules).pending) (target : String → Nat) :
    order.foldl (fill target) (ofRules rules).atoms =
      (allAtoms target 0 (rules.map (·.2))).toArray := by
  rw [ofRules_eq] at any ⊢
  have apart := (ascend_allWaiting 0 (rules.map (·.2))).ordered.imp Nat.ne_of_lt
  have injective := inj_on_of_nodup_map (pairwise_map.mpr apart)
  have filled : Fills target 0 _ _ _ := fills_allAtoms (rules.map (·.2))
  replace filled := filled [] [] rfl
  rw [append_nil, append_nil, nil_append, nil_append] at filled
  refine (any.foldl_eq' (fun first here second there atoms => ?_) _).trans filled
  by_cases same : first = second
  · rw [same]
  · exact fill_comm (fun equal => same (injective (any.subset here) (any.subset there) equal)) atoms

/-- All names are known and all references are filled in, or one that waits is named. -/
theorem foldlM_resolve (known : SortedMap Nat) (order : List (Nat × String)) (atoms : Array Atom) :
    (∀ name ∈ order.map (·.2), (known.get? name).isSome) ∧
        order.foldlM (resolve known) atoms =
          .ok (order.foldl (fill fun name => (known.get? name).getD 0) atoms) ∨
      ∃ name ∈ order.map (·.2), known.get? name = none ∧
        order.foldlM (resolve known) atoms = .error (.undefinedRule name) := by
  induction order generalizing atoms with
  | nil => exact .inl ⟨by simp, rfl⟩
  | cons reference rest ih =>
    rw [foldlM_cons, resolve]
    cases found : known.get? reference.2 with
    | none => exact .inr ⟨reference.2, mem_cons_self, found, rfl⟩
    | some target =>
      have filled : fill (fun name => (known.get? name).getD 0) atoms reference =
          atoms.modify reference.1 (.pointTo target) := by
        rw [fill, found, Option.getD_some]
      rcases ih (atoms.modify reference.1 (.pointTo target)) with ⟨all, same⟩ | ⟨name, later, rest⟩
      · refine .inl ⟨forall_mem_cons.mpr ⟨by rw [found]; rfl, all⟩, ?_⟩
        rw [foldl_cons, filled]
        exact same
      · exact .inr ⟨name, mem_cons_of_mem _ later, rest⟩

variable {rules : Rules} {order : List (Nat × String)} {grammar : Grammar}

/-- The names that wait are those that the rules refer to. -/
theorem mem_pending (any : order.Perm (ofRules rules).pending) (name : String) :
    name ∈ order.map (·.2) ↔ name ∈ allReferences (rules.map (·.2)) := by
  rw [ofRules_eq] at any
  rw [(any.map (·.2)).mem_iff, map_allWaiting]

/-- The first rule gives the root. -/
theorem root_eq (rule : String × Expr) (others : Rules) :
    (some rule.1).bind (ruleMap (rule :: others)).get? =
      some (targetOf (rule :: others) rule.1) := by
  rw [Option.bind_some, targetOf, ruleMap, SortedMap.get?_ofList, map_cons, map_cons,
    tops, zip_cons_cons, reverse_cons, lookup_append, lookup_cons,
    beq_self_eq_true]
  generalize List.lookup rule.1 (List.reverse _) = later
  cases later <;> rfl

theorem checked_eq_ok_iff {table : Grammar} :
    table.checked = .ok grammar ↔ table = grammar ∧ grammar.fault? = none := by
  rw [checked]
  constructor
  · intro built
    split at built
    · cases built
    · next sound =>
      cases built
      exact ⟨rfl, sound⟩
  · rintro ⟨rfl, sound⟩
    rw [sound]

/-- In whatever order the references are filled in, building succeeds if all names are known, there
is a rule and the table has no fault. Then it gives that table. -/
theorem finish_eq_ok_iff (any : order.Perm (ofRules rules).pending) :
    (ofRules rules).finish order = .ok grammar ↔
      (∀ name ∈ allReferences (rules.map (·.2)), ((ruleMap rules).get? name).isSome) ∧
        (∃ root others, rules = root :: others ∧ grammar = tableOf rules root.1) ∧
        grammar.fault? = none := by
  have map : (ofRules rules).rules = ruleMap rules := by rw [ofRules_eq]
  have first : (ofRules rules).first = rules.head?.map (·.1) := by rw [ofRules_eq]
  rw [finish, map, first]
  rcases foldlM_resolve (ruleMap rules) order (ofRules rules).atoms with
    ⟨known, same⟩ | ⟨name, used, missing, same⟩
  · simp only [mem_pending any] at known
    rw [same, foldl_fill any]
    cases rules with
    | nil => simp
    | cons rule others =>
      dsimp only
      rw [List.head?_cons, Option.map_some, root_eq]
      change (tableOf (rule :: others) rule.1).checked = .ok grammar ↔ _
      rw [checked_eq_ok_iff]
      constructor
      · rintro ⟨rfl, sound⟩
        exact ⟨known, ⟨rule, others, rfl, rfl⟩, sound⟩
      · rintro ⟨-, ⟨root, rest, whole, rfl⟩, sound⟩
        cases whole
        exact ⟨rfl, sound⟩
  · rw [same]
    constructor
    · intro built
      cases built
    rintro ⟨known, -⟩
    have found := known name ((mem_pending any name).mp used)
    rw [missing] at found
    cases found

/-- If a name is unknown, building fails with one that is. -/
theorem finish_of_unknown (any : order.Perm (ofRules rules).pending) {name : String}
    (used : name ∈ allReferences (rules.map (·.2))) (missing : (ruleMap rules).get? name = none) :
    ∃ name ∈ allReferences (rules.map (·.2)), (ruleMap rules).get? name = none ∧
      (ofRules rules).finish order = .error (.undefinedRule name) := by
  have map : (ofRules rules).rules = ruleMap rules := by rw [ofRules_eq]
  rcases foldlM_resolve (ruleMap rules) order (ofRules rules).atoms with
    ⟨known, -⟩ | ⟨other, waits, unknown, same⟩
  · have found := known name ((mem_pending any name).mpr used)
    rw [missing] at found
    cases found
  · refine ⟨other, (mem_pending any other).mp waits, unknown, ?_⟩
    rw [finish, map, same]

end Builder

end Reflow
