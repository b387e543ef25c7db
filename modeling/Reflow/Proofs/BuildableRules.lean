import Reflow.Proofs.FailureReports

/-!
# Rules that can be built

Building turns rules down for three reasons only: there are none, a name is not defined, or the
bounds of a repetition exclude each other (`exists_build`). What the other rules read does not
change when a rule is put in front of them (`readRule_cons`), so a root can be exchanged for another.
-/

namespace Reflow

open List Expr

/-! ## Bounds of repetitions -/

/-- Whether the bounds of a repetition leave it a number of rounds. -/
def Atom.isBounded : Atom → Bool
  | repetition _ least most => most.all (least ≤ ·)
  | _ => true

namespace Expr

mutual

/-- Whether the bounds of every repetition leave it a number of rounds. -/
def isBounded : Expr → Bool
  | literal _ | regex _ | reference _ => true
  | sequence parts => allBounded parts
  | choice options => allBounded options
  | repetition inner least most => inner.isBounded && most.all (least ≤ ·)
  | capture inner _ | lookahead inner _ | flat inner => inner.isBounded

def allBounded : List Expr → Bool
  | [] => true
  | first :: rest => first.isBounded && allBounded rest

end

section

variable {target : String → Nat} {atom : Atom}

mutual

/-- Atoms have the bounds of their expressions. -/
theorem isBounded_of_mem {start : Nat} : (expr : Expr) → expr.isBounded →
    atom ∈ expr.atoms target start → atom.isBounded
  | literal _, _, member | regex _, _, member | reference _, _, member => by
    rw [mem_singleton.mp member]
    rfl
  | sequence parts, bounded, member | choice parts, bounded, member => by
    rcases mem_append.mp member with inside | own
    · exact isBounded_of_mem_all parts bounded inside
    · rw [mem_singleton.mp own]
      rfl
  | repetition inner _ _, bounded, member => by
    obtain ⟨innerBounded, ownBounded⟩ := Bool.and_eq_true_iff.mp bounded
    rcases mem_append.mp member with inside | own
    · exact isBounded_of_mem inner innerBounded inside
    · rw [mem_singleton.mp own]
      exact ownBounded
  | capture inner _, bounded, member | lookahead inner _, bounded, member
  | flat inner, bounded, member => by
    rcases mem_append.mp member with inside | own
    · exact isBounded_of_mem inner bounded inside
    · rw [mem_singleton.mp own]
      rfl

theorem isBounded_of_mem_all {start : Nat} : (exprs : List Expr) → allBounded exprs →
    atom ∈ allAtoms target start exprs → atom.isBounded
  | [], _, member => by cases member
  | first :: rest, bounded, member => by
    obtain ⟨firstBounded, restBounded⟩ := Bool.and_eq_true_iff.mp bounded
    rcases mem_append.mp member with early | late
    · exact isBounded_of_mem first firstBounded early
    · exact isBounded_of_mem_all rest restBounded late

end

end

end Expr

namespace Grammar

/-! ## Faults -/

/-- An atom is in order if its parts stand in the table and its bounds leave it a number of
rounds. -/
theorem atomFault?_eq_none {size index : Nat} {atom : Atom}
    (inside : ∀ part ∈ atom.children, part < size) (bounded : atom.isBounded) :
    atomFault? size index atom = none := by
  have known : atom.children.find? (size ≤ ·) = none := by
    rw [List.find?_eq_none]
    intro part member
    have below := inside part member
    simpa using below
  unfold atomFault?
  rw [known]
  dsimp only
  split
  · next least most =>
    have ordered : least ≤ most := by simpa [Atom.isBounded] using bounded
    exact if_neg (by omega)
  · rfl

theorem fault?_eq_none {grammar : Grammar} (rooted : grammar.root < grammar.atoms.size)
    (inside : ∀ (index : Nat) (atom : Atom), grammar.atoms.toList[index]? = some atom →
      ∀ part ∈ atom.children, part < grammar.atoms.size)
    (bounded : ∀ atom ∈ grammar.atoms.toList, atom.isBounded)
    (named : ∀ entry ∈ grammar.rules.entries, entry.2 < grammar.atoms.size) :
    grammar.fault? = none := by
  have atomsSound : ∀ entry ∈ grammar.atoms.toList.zipIdx,
      atomFault? grammar.atoms.size entry.2 entry.1 = none := by
    rintro ⟨atom, index⟩ member
    have found := mem_zipIdx_iff_getElem?.mp member
    exact atomFault?_eq_none (inside index atom found) (bounded atom (mem_of_getElem? found))
  rw [fault?]
  dsimp only
  rw [if_neg (by omega), List.findSome?_eq_none_iff.mpr atomsSound]
  dsimp only
  rw [List.findSome?_eq_none_iff]
  intro entry member
  exact if_neg (by have below := named entry member; omega)

/-! ## Building -/

variable {rules : Rules}

/-- The top of a body stands in the table. -/
theorem targetOf_lt {name : String} {body : Expr} (defined : bodyOf? rules name = some body) :
    targetOf rules name < sizes (rules.map (·.2)) := by
  obtain ⟨place, before, after, top, atoms, size⟩ := lookup_tops defined (targetOf rules) 0
  have whole := congrArg List.length atoms
  have positive := body.size_pos
  have target : targetOf rules name = place + body.size - 1 := by
    rw [targetOf, ruleMap, SortedMap.get?_ofList, top, Option.getD_some]
  simp only [length_append, length_allAtoms, length_atoms] at whole
  omega

theorem size_tableOf (rules : Rules) (root : String) :
    (tableOf rules root).atoms.size = sizes (rules.map (·.2)) := by
  rw [tableOf, size_toArray, length_allAtoms]

section

variable (defined : ∀ name ∈ allReferences (rules.map (·.2)), (bodyOf? rules name).isSome)

include defined

/-- If rules define the names they refer to, every part of an atom is an atom. -/
theorem part_lt_size {root : String} {index : Nat} {atom : Atom}
    (found : (tableOf rules root).atoms.toList[index]? = some atom) {part : Nat}
    (member : part ∈ atom.children) : part < (tableOf rules root).atoms.size := by
  rw [size_tableOf]
  -- Only a reference points anywhere in the table; all other atoms come after their parts.
  cases atom with
  | rule inner =>
    obtain ⟨name, used, rfl⟩ := mem_allReferences _ (mem_of_getElem? found)
    obtain ⟨body, known⟩ := Option.isSome_iff_exists.mp (defined name used)
    rw [mem_singleton.mp member]
    exact targetOf_lt known
  | _ =>
    have before := climbs_allAtoms _ 0 _ index _ found rfl part member
    have within := (List.getElem?_eq_some_iff.mp found).1
    rw [Array.length_toList, size_tableOf] at within
    omega

theorem fault?_tableOf (bounded : allBounded (rules.map (·.2))) {root : String}
    {body : Expr} (rooted : bodyOf? rules root = some body) :
    (tableOf rules root).fault? = none := by
  refine fault?_eq_none ?_ (fun index atom found part => part_lt_size defined found) ?_ ?_
  · rw [size_tableOf]
    exact targetOf_lt rooted
  · exact fun atom member => isBounded_of_mem_all _ bounded member
  · intro entry member
    have top := (of_mem_zip (SortedMap.mem_of_mem_ofList member)).2
    have below := tops_lt 0 _ _ top
    rw [size_tableOf]
    omega

end

/-- Rules that define the names they refer to can be built, if the bounds of their repetitions leave
a number of rounds. -/
theorem exists_build {root : String × Expr} {others : Rules}
    (defined : ∀ name ∈ allReferences ((root :: others).map (·.2)),
      (bodyOf? (root :: others) name).isSome)
    (bounded : allBounded ((root :: others).map (·.2))) :
    ∃ grammar, build (root :: others) = .ok grammar := by
  obtain ⟨body, rooted⟩ := exists_bodyOf?_head root others
  have sound := fault?_tableOf defined bounded rooted
  refine ⟨_, (Builder.finish_eq_ok_iff (.refl _)).mpr ⟨?_, ⟨root, others, rfl, rfl⟩, sound⟩⟩
  intro name used
  obtain ⟨body, found⟩ := Option.isSome_iff_exists.mp (defined name used)
  exact known_of_defined found

end Grammar

/-! ## A rule in front of others -/

section

variable {root : String × Expr} {others : Rules}

theorem bodyOf?_cons_of_defined {name : String} {body : Expr}
    (defined : bodyOf? others name = some body) : bodyOf? (root :: others) name = some body := by
  rw [bodyOf?, reverse_cons, lookup_append]
  rw [bodyOf?] at defined
  rw [defined, Option.some_or]

/-- An expression is closed if its references are. -/
theorem Expr.closedWithin_of_forall {rules : Rules} {levels : Nat} {expr : Expr}
    (closed : ∀ name ∈ expr.references, (reference name).closedWithin rules levels) :
    expr.closedWithin rules levels := by
  cases levels with
  | zero =>
    rw [closedWithin, List.isEmpty_iff, eq_nil_iff_forall_not_mem]
    intro name used
    cases closed name used
  | succ levels =>
    rw [closedWithin, all_eq_true]
    intro name used
    obtain ⟨body, defined, inner⟩ := closedWithin_reference (closed name used)
    rw [defined]
    exact inner

theorem Expr.closedWithin_cons {levels : Nat} {expr : Expr}
    (closed : expr.closedWithin others levels) :
    expr.closedWithin (root :: others) levels := by
  induction levels generalizing expr with
  | zero => exact closed
  | succ levels ih =>
    rw [closedWithin, all_eq_true]
    intro name used
    obtain ⟨body, defined, inner⟩ :=
      closedWithin_reference (closedWithin_of_mem closed used)
    rw [bodyOf?_cons_of_defined defined]
    exact ih inner

mutual

/-- What an expression reads depends on what its own references read. -/
theorem Expr.read_congr {rule rule' : String → Reader} : (expr : Expr) →
    (∀ name ∈ expr.references, rule name = rule' name) → expr.read rule = expr.read rule'
  | literal _, _ | regex _, _ => rfl
  | reference name, same => same name mem_cons_self
  | sequence parts, same => by rw [read_sequence, read_sequence, readEach_congr parts same]
  | choice options, same => by rw [read_choice, read_choice, readEach_congr options same]
  | repetition inner _ _, same => by rw [read_repetition, read_repetition, read_congr inner same]
  | capture inner _, same => by rw [read_capture, read_capture, read_congr inner same]
  | lookahead inner _, same => by rw [read_lookahead, read_lookahead, read_congr inner same]
  | flat inner, same => by rw [read_flat, read_flat, read_congr inner same]

theorem Expr.readEach_congr {rule rule' : String → Reader} : (exprs : List Expr) →
    (∀ name ∈ allReferences exprs, rule name = rule' name) →
      readEach rule exprs = readEach rule' exprs
  | [], _ => rfl
  | first :: rest, same => by
    rw [readEach_cons, readEach_cons,
      read_congr first fun name used => same name (mem_append_left _ used),
      readEach_congr rest fun name used => same name (mem_append_right _ used)]

end

/-- Rules that refer to each other read the same behind another rule. -/
theorem readRule_cons {levels : Nat} {name : String}
    (closed : (reference name).closedWithin others levels) :
    readRule (root :: others) levels name = readRule others levels name := by
  induction levels generalizing name with
  | zero => rfl
  | succ levels ih =>
    obtain ⟨body, defined, inner⟩ := closedWithin_reference closed
    rw [readRule_of_defined defined, readRule_of_defined (bodyOf?_cons_of_defined defined)]
    exact body.read_congr fun other used => ih (closedWithin_of_mem inner used)

end

end Reflow
