import Reflow.Proofs.BuildableRules

/-!
# References are resolved

All that is inside some expressions can be listed, parts before the whole and left to right.
Building puts one atom in the table for each member of this list, in the same order. It keeps what
the member says, and in the place of a name it puts the atom of the last rule of that name, while
every other part is pointed at where it stands, which is before the whole (`Resolved`). Building
fails only for want of a rule, for a name that no rule has, or for bounds that exclude each other
(`Grammar.build_resolves`).
-/

namespace Reflow

open List Expr Builder Option

namespace Expr

/-! ## All that is inside an expression -/

mutual

/-- An expression and all that is inside it, parts before the whole. -/
def listing : Expr → List Expr
  | literal text => [literal text]
  | regex pattern => [regex pattern]
  | reference rule => [reference rule]
  | sequence parts => allListing parts ++ [sequence parts]
  | choice options => allListing options ++ [choice options]
  | repetition inner least most => inner.listing ++ [repetition inner least most]
  | capture inner label => inner.listing ++ [capture inner label]
  | lookahead inner positive => inner.listing ++ [lookahead inner positive]
  | flat inner => inner.listing ++ [flat inner]

def allListing : List Expr → List Expr
  | [] => []
  | first :: rest => first.listing ++ allListing rest

end

mutual

/-- There is one atom for each member of the listing. -/
theorem length_listing : (expr : Expr) → expr.listing.length = expr.size
  | literal _ | regex _ | reference _ => rfl
  | sequence parts | choice parts => by simp [listing, size, length_allListing parts]
  | repetition inner _ _ | capture inner _ | lookahead inner _ | flat inner => by
    simp [listing, size, length_listing inner]

theorem length_allListing : (exprs : List Expr) → (allListing exprs).length = sizes exprs
  | [] => rfl
  | first :: rest => by
    simp [allListing, sizes, length_listing first, length_allListing rest]

end

theorem allListing_append (first second : List Expr) :
    allListing (first ++ second) = allListing first ++ allListing second := by
  induction first with
  | nil => rfl
  | cons expr first ih => simp [allListing, ih]

theorem getLast?_listing (expr : Expr) : expr.listing.getLast? = some expr := by
  cases expr <;> simp [listing]

mutual

/-- The names of an expression are those of the references inside it. -/
theorem mem_references_iff {name : String} : (expr : Expr) →
    (name ∈ expr.references ↔ reference name ∈ expr.listing)
  | literal _ | regex _ | reference _ => by simp [references, listing]
  | sequence parts | choice parts => by simp [references, listing, mem_allReferences_iff parts]
  | repetition inner _ _ | capture inner _ | lookahead inner _ | flat inner => by
    simp [references, listing, mem_references_iff inner]

theorem mem_allReferences_iff {name : String} : (exprs : List Expr) →
    (name ∈ allReferences exprs ↔ reference name ∈ allListing exprs)
  | [] => by simp [allReferences, allListing]
  | first :: rest => by
    simp [allReferences, allListing, mem_references_iff first, mem_allReferences_iff rest]

end

/-- No repetition among some expressions has an upper bound below its lower bound. -/
def Ordered (listed : List Expr) : Prop :=
  ∀ inner least most, repetition inner least (some most) ∈ listed → least ≤ most

theorem ordered_append {first second : List Expr} :
    Ordered (first ++ second) ↔ Ordered first ∧ Ordered second := by
  simp [Ordered, or_imp, forall_and]

mutual

theorem isBounded_iff : (expr : Expr) → (expr.isBounded ↔ Ordered expr.listing)
  | literal _ | regex _ | reference _ => by simp [isBounded, listing, Ordered]
  | sequence parts | choice parts => by
    rw [isBounded, listing, ordered_append, allBounded_iff parts]
    simp [Ordered]
  | repetition inner least most => by
    have own : most.all (least ≤ ·) ↔ Ordered [repetition inner least most] := by
      constructor
      · intro fits other low high member
        cases mem_singleton.mp member
        simpa using fits
      · intro ordered
        cases most with
        | none => rfl
        | some high => simpa using ordered inner least high mem_cons_self
    rw [isBounded, listing, ordered_append, Bool.and_eq_true, isBounded_iff inner, own]
  | capture inner _ | lookahead inner _ | flat inner => by
    rw [isBounded, listing, ordered_append, isBounded_iff inner]
    simp [Ordered]

theorem allBounded_iff : (exprs : List Expr) →
    (allBounded exprs ↔ Ordered (allListing exprs))
  | [] => by simp [allBounded, allListing, Ordered]
  | first :: rest => by
    rw [allBounded, allListing, ordered_append, Bool.and_eq_true, isBounded_iff first,
      allBounded_iff rest]

end

end Expr

/-! ## Expressions and their atoms -/

/-- An expression stands in a list at an index, and that is before another index. -/
def PartAt (listed : List Expr) (index : Nat) (expr : Expr) (part : Nat) : Prop :=
  part < index ∧ listed[part]? = some expr

/-- The atom of an expression at an index of a list: a name becomes the atom of its rule, and other
parts are pointed at where they stand in the list. -/
inductive Resolved (atomOf : String → Option Nat) (listed : List Expr) (index : Nat) :
    Expr → Atom → Prop where
  | literal (text : String) : Resolved atomOf listed index (.literal text) (.literal text)
  | regex (pattern : String) : Resolved atomOf listed index (.regex pattern) (.regex pattern)
  | reference {name : String} {target : Nat} (known : atomOf name = some target) :
      Resolved atomOf listed index (.reference name) (.rule target)
  | sequence {exprs : List Expr} {parts : List Nat}
      (inside : Forall₂ (PartAt listed index) exprs parts) :
      Resolved atomOf listed index (.sequence exprs) (.sequence parts)
  | choice {exprs : List Expr} {parts : List Nat}
      (inside : Forall₂ (PartAt listed index) exprs parts) :
      Resolved atomOf listed index (.choice exprs) (.choice parts)
  | repetition {expr : Expr} {part : Nat} (inside : PartAt listed index expr part) (least : Nat)
      (most : Option Nat) :
      Resolved atomOf listed index (.repetition expr least most) (.repetition part least most)
  | capture {expr : Expr} {part : Nat} (inside : PartAt listed index expr part) (label : String) :
      Resolved atomOf listed index (.capture expr label) (.capture label part)
  | lookahead {expr : Expr} {part : Nat} (inside : PartAt listed index expr part)
      (positive : Bool) :
      Resolved atomOf listed index (.lookahead expr positive) (.lookahead part positive)
  | flat {expr : Expr} {part : Nat} (inside : PartAt listed index expr part) :
      Resolved atomOf listed index (.flat expr) (.flat part)

/-- Some expressions stand in a list from an index on. -/
def Listed (listed : List Expr) (start : Nat) (exprs : List Expr) : Prop :=
  ∀ place expr, exprs[place]? = some expr → listed[start + place]? = some expr

namespace Listed

variable {listed first second : List Expr} {start : Nat}

theorem refl (listed : List Expr) : Listed listed 0 listed := by
  intro place expr found
  rwa [Nat.zero_add]

theorem left (given : Listed listed start (first ++ second)) : Listed listed start first := by
  intro place expr found
  have inside := (List.getElem?_eq_some_iff.mp found).1
  exact given place expr (by rwa [List.getElem?_append_left inside])

theorem right (given : Listed listed start (first ++ second)) :
    Listed listed (start + first.length) second := by
  intro place expr found
  rw [Nat.add_assoc]
  refine given _ expr ?_
  rwa [List.getElem?_append_right (Nat.le_add_right _ _), Nat.add_sub_cancel_left]

/-- The expression itself is the last one of its listing. -/
theorem partAt {expr : Expr} (given : Listed listed start expr.listing) {index : Nat}
    (before : start + expr.size ≤ index) : PartAt listed index expr (start + expr.size - 1) := by
  have positive := expr.size_pos
  have last := expr.getLast?_listing
  rw [List.getLast?_eq_getElem?, length_listing] at last
  have place := given _ expr last
  rw [← Nat.add_sub_assoc positive] at place
  exact ⟨by omega, place⟩

theorem partsAt {exprs : List Expr} (given : Listed listed start (allListing exprs))
    {index : Nat} (before : start + sizes exprs ≤ index) :
    Forall₂ (PartAt listed index) exprs (tops start exprs) := by
  induction exprs generalizing start with
  | nil => exact .nil
  | cons expr exprs ih =>
    rw [sizes] at before
    have behind := given.right
    rw [length_listing] at behind
    exact .cons (given.left.partAt (by omega)) (ih behind (by omega))

end Listed

/-- Atoms from an index on are those of expressions. -/
def AllResolved (atomOf : String → Option Nat) (listed : List Expr) (start : Nat)
    (exprs : List Expr) (atoms : List Atom) : Prop :=
  ∀ place expr atom, exprs[place]? = some expr → atoms[place]? = some atom →
    Resolved atomOf listed (start + place) expr atom

namespace AllResolved

variable {atomOf : String → Option Nat} {listed exprs others : List Expr} {start : Nat}
  {atoms more : List Atom}

theorem single {expr : Expr} {atom : Atom} (resolved : Resolved atomOf listed start expr atom) :
    AllResolved atomOf listed start [expr] [atom] := by
  intro place other found there here
  cases place with
  | zero =>
    cases there
    cases here
    exact resolved
  | succ place => cases there

theorem append (front : AllResolved atomOf listed start exprs atoms)
    (same : exprs.length = atoms.length)
    (back : AllResolved atomOf listed (start + atoms.length) others more) :
    AllResolved atomOf listed start (exprs ++ others) (atoms ++ more) := by
  intro place expr atom there here
  rw [List.getElem?_append] at there here
  rw [same] at there
  split at there
  · next early =>
    rw [if_pos early] at here
    exact front place expr atom there here
  · next late =>
    rw [if_neg late] at here
    have resolved := back _ expr atom there here
    rwa [show start + atoms.length + (place - atoms.length) = start + place by omega] at resolved

end AllResolved

namespace Expr

section

variable {atomOf : String → Option Nat} {target : String → Nat} {listed : List Expr}

mutual

/-- The atoms of an expression are those of its listing. -/
theorem allResolved_atoms : (expr : Expr) → {start : Nat} → Listed listed start expr.listing →
    (∀ name ∈ expr.references, atomOf name = some (target name)) →
    AllResolved atomOf listed start expr.listing (expr.atoms target start)
  | literal text, _, _, _ => .single (.literal text)
  | regex pattern, _, _, _ => .single (.regex pattern)
  | reference name, _, _, known => .single (.reference (known name mem_cons_self))
  | sequence parts, start, given, known =>
    allResolved_behind parts given.left known fun inside => .sequence inside
  | choice options, start, given, known =>
    allResolved_behind options given.left known fun inside => .choice inside
  | repetition inner least most, start, given, known =>
    allResolved_around inner given.left known fun inside => .repetition inside least most
  | capture inner label, start, given, known =>
    allResolved_around inner given.left known fun inside => .capture inside label
  | lookahead inner positive, start, given, known =>
    allResolved_around inner given.left known fun inside => .lookahead inside positive
  | flat inner, start, given, known =>
    allResolved_around inner given.left known fun inside => .flat inside

theorem allResolved_around (inner : Expr) {start : Nat} (given : Listed listed start inner.listing)
    (known : ∀ name ∈ inner.references, atomOf name = some (target name)) {expr : Expr}
    {atom : Atom}
    (own : PartAt listed (start + inner.size) inner (start + inner.size - 1) →
      Resolved atomOf listed (start + inner.size) expr atom) :
    AllResolved atomOf listed start (inner.listing ++ [expr])
      (inner.atoms target start ++ [atom]) := by
  refine (allResolved_atoms inner given known).append ?_ (.single ?_)
  · rw [length_listing, length_atoms]
  · rw [length_atoms]
    exact own (given.partAt (Nat.le_refl _))

theorem allResolved_behind (parts : List Expr) {start : Nat}
    (given : Listed listed start (allListing parts))
    (known : ∀ name ∈ allReferences parts, atomOf name = some (target name)) {expr : Expr}
    {atom : Atom}
    (own : Forall₂ (PartAt listed (start + sizes parts)) parts (tops start parts) →
      Resolved atomOf listed (start + sizes parts) expr atom) :
    AllResolved atomOf listed start (allListing parts ++ [expr])
      (allAtoms target start parts ++ [atom]) := by
  refine (allResolved_allAtoms parts given known).append ?_ (.single ?_)
  · rw [length_allListing, length_allAtoms]
  · rw [length_allAtoms]
    exact own (given.partsAt (Nat.le_refl _))

theorem allResolved_allAtoms : (exprs : List Expr) → {start : Nat} →
    Listed listed start (allListing exprs) →
    (∀ name ∈ allReferences exprs, atomOf name = some (target name)) →
    AllResolved atomOf listed start (allListing exprs) (allAtoms target start exprs)
  | [], _, _, _ => fun _ _ _ there => by cases there
  | first :: rest, start, given, known => by
    have behind := given.right
    rw [length_listing] at behind
    refine (allResolved_atoms first given.left fun name used => ?_).append ?_ ?_
    · exact known name (mem_append_left _ used)
    · rw [length_listing, length_atoms]
    · rw [length_atoms]
      exact allResolved_allAtoms rest behind fun name used =>
        known name (mem_append_right _ used)

end

end

end Expr

/-! ## Rules -/

namespace Expr

theorem tops_append (start : Nat) (first second : List Expr) :
    tops start (first ++ second) = tops start first ++ tops (start + sizes first) second := by
  induction first generalizing start with
  | nil => rfl
  | cons expr first ih =>
    rw [cons_append, tops, tops, ih, sizes, Nat.add_assoc, cons_append]

theorem length_tops (start : Nat) (exprs : List Expr) :
    (tops start exprs).length = exprs.length := by
  induction exprs generalizing start with
  | nil => rfl
  | cons expr exprs ih => rw [tops, length_cons, length_cons, ih]

end Expr

namespace Grammar

variable {rules : Rules} {name : String}

theorem isSome_bodyOf?_iff : (bodyOf? rules name).isSome ↔ name ∈ rules.map (·.1) := by
  rw [← not_iff_not, Bool.not_eq_true, isSome_eq_false_iff, isNone_iff_eq_none,
    bodyOf?, lookup_eq_none_iff]
  simp only [mem_reverse, bne_iff_ne, List.mem_map, not_exists, not_and]
  exact forall_congr' fun rule => imp_congr_right fun _ => ne_comm

theorem lookup_tops_of_absent (absent : name ∉ rules.map (·.1)) (start : Nat) :
    ((rules.map (·.1)).zip (tops start (rules.map (·.2)))).reverse.lookup name = none := by
  rw [lookup_eq_none_iff]
  intro pair member
  have named := (of_mem_zip (mem_reverse.mp member)).1
  simp only [bne_iff_ne, ne_eq]
  rintro rfl
  exact absent named

theorem get?_ruleMap_of_absent (absent : name ∉ rules.map (·.1)) :
    (ruleMap rules).get? name = none := by
  rw [ruleMap, SortedMap.get?_ofList, lookup_tops_of_absent absent]

/-- The last rule of a name gives it its atom. -/
theorem get?_ruleMap {before after : Rules} {body : Expr} (last : name ∉ after.map (·.1)) :
    (ruleMap (before ++ (name, body) :: after)).get? name =
      some (sizes (before.map (·.2)) + body.size - 1) := by
  have same : (before.map (·.1)).length = (tops 0 (before.map (·.2))).length := by
    rw [length_tops, length_map, length_map]
  rw [ruleMap, SortedMap.get?_ofList, map_append, map_append, tops_append,
    zip_append same, reverse_append, lookup_append, map_cons, map_cons,
    tops, zip_cons_cons, reverse_cons, lookup_append,
    lookup_tops_of_absent last, none_or]
  simp

def listingOf (rules : Rules) : List Expr := allListing (rules.map (·.2))

/-- What is built is the table of the rules, whose names are all known. -/
theorem exists_tableOf {grammar : Grammar} (built : build rules = .ok grammar) :
    (∀ name, .reference name ∈ listingOf rules → ((ruleMap rules).get? name).isSome) ∧
      ∃ root others, rules = root :: others ∧ grammar = tableOf rules root.1 := by
  obtain ⟨known, made, -⟩ := (finish_eq_ok_iff (.refl _)).mp built
  exact ⟨fun name used => known name ((mem_allReferences_iff _).mpr used), made⟩

section

variable {rules : Rules} {grammar : Grammar}

theorem ruleAtom?_of_known (root : String) (known : ((ruleMap rules).get? name).isSome) :
    (tableOf rules root).ruleAtom? name = some (targetOf rules name) := by
  obtain ⟨index, found⟩ := isSome_iff_exists.mp known
  change (ruleMap rules).get? name = some (((ruleMap rules).get? name).getD 0)
  rw [found, getD_some]

/-- Every atom that was built is that of the expression at its index. -/
theorem allResolved_of_build (built : build rules = .ok grammar) :
    AllResolved grammar.ruleAtom? (listingOf rules) 0 (listingOf rules) grammar.atoms.toList := by
  obtain ⟨known, root, others, whole, rfl⟩ := exists_tableOf built
  refine allResolved_allAtoms _ (.refl _) fun name used => ?_
  exact ruleAtom?_of_known root.1 (known name ((mem_allReferences_iff _).mp used))

theorem size_of_build (built : build rules = .ok grammar) :
    grammar.atoms.size = (listingOf rules).length := by
  obtain ⟨-, root, others, -, rfl⟩ := exists_tableOf built
  rw [size_tableOf, listingOf, length_allListing]

/-- Building succeeds if and only if there is a rule, all names are defined, and no bounds exclude
each other. -/
theorem exists_build_iff : (∃ grammar, build rules = .ok grammar) ↔
    rules ≠ [] ∧ (∀ name, .reference name ∈ listingOf rules → name ∈ rules.map (·.1)) ∧
      Expr.Ordered (listingOf rules) := by
  constructor
  · rintro ⟨grammar, built⟩
    obtain ⟨known, root, others, whole, -⟩ := exists_tableOf built
    refine ⟨by simp [whole], fun name used => ?_, fun inner least most used => ?_⟩
    · by_contra absent
      have found := known name used
      rw [get?_ruleMap_of_absent absent] at found
      cases found
    · -- The atom of the repetition has the same bounds, and it has no fault.
      obtain ⟨index, listed⟩ := mem_iff_getElem?.mp used
      have inside : index < grammar.atoms.toList.length := by
        rw [Array.length_toList, size_of_build built]
        exact (List.getElem?_eq_some_iff.mp listed).1
      have found := List.getElem?_eq_getElem inside
      have resolved := allResolved_of_build built index _ _ listed found
      rw [Array.getElem?_toList] at found
      have sound := (atomFault?_of_fault? (fault?_of_build built)).2 found
      generalize grammar.atoms.toList[index] = atom at resolved sound
      cases resolved with
      | repetition part least most =>
        unfold atomFault? at sound
        split at sound
        · cases sound
        · dsimp only at sound
          split at sound
          · cases sound
          · next ordered => exact Nat.le_of_not_lt ordered
  · rintro ⟨someRule, defined, ordered⟩
    obtain ⟨root, others, rfl⟩ := exists_cons_of_ne_nil someRule
    refine exists_build (fun name used => ?_) ((allBounded_iff _).mpr ordered)
    exact isSome_bodyOf?_iff.mpr (defined name ((mem_allReferences_iff _).mp used))

/-- What building makes of rules. -/
structure BuiltFrom (rules : Rules) (grammar : Grammar) : Prop where
  /-- The root is the atom of the name of the first rule. -/
  root : ∃ rule ∈ rules.head?, grammar.ruleAtom? rule.1 = some grammar.root
  /-- A name stands for the atom of the last expression that it was given to. -/
  last : ∀ before name body after, rules = before ++ (name, body) :: after →
    name ∉ after.map (·.1) →
    grammar.ruleAtom? name = some (sizes (before.map (·.2)) + body.size - 1) ∧
      (listingOf rules)[sizes (before.map (·.2)) + body.size - 1]? = some body
  /-- No other name stands for anything. -/
  absent : ∀ name, name ∉ rules.map (·.1) → grammar.ruleAtom? name = none
  /-- There are as many atoms as expressions, also in rules that later ones replace. -/
  size : grammar.atoms.size = (listingOf rules).length
  /-- References point to the atom of their rule, and other atoms to those of their parts. -/
  resolved : ∀ (index : Nat) (expr : Expr) (atom : Atom), (listingOf rules)[index]? = some expr →
    grammar.atoms[index]? = some atom →
    Resolved grammar.ruleAtom? (listingOf rules) index expr atom
  /-- An atom that is no reference stands behind its parts. -/
  climbs : ∀ (index : Nat) (atom : Atom), grammar.atoms[index]? = some atom →
    (∀ target, atom ≠ .rule target) → ∀ part ∈ atom.children, part < index
  sound : grammar.fault? = none

theorem builtFrom_of_build (built : build rules = .ok grammar) : BuiltFrom rules grammar where
  root := by
    obtain ⟨-, root, others, rfl, rfl⟩ := exists_tableOf built
    obtain ⟨body, defined⟩ := exists_bodyOf?_head root others
    exact ⟨root, rfl, ruleAtom?_of_known root.1 (known_of_defined defined)⟩
  last := by
    intro before name body after whole last
    obtain ⟨-, root, others, -, rfl⟩ := exists_tableOf built
    constructor
    · change (ruleMap rules).get? name = _
      rw [whole, get?_ruleMap last]
    · have listing : listingOf rules = allListing (before.map (·.2)) ++
          (body.listing ++ allListing (after.map (·.2))) := by
        rw [listingOf, whole, map_append, allListing_append, map_cons, allListing]
      have listed : Listed (listingOf rules) 0 (allListing (before.map (·.2)) ++
          (body.listing ++ allListing (after.map (·.2)))) := listing ▸ Listed.refl _
      have own := listed.right.left.partAt (Nat.le_refl _)
      rw [length_allListing, Nat.zero_add] at own
      exact own.2
  absent := by
    intro name absent
    obtain ⟨-, root, others, -, rfl⟩ := exists_tableOf built
    exact get?_ruleMap_of_absent absent
  size := size_of_build built
  resolved := by
    intro index expr atom listed found
    rw [← Array.getElem?_toList] at found
    have resolved := allResolved_of_build built index expr atom listed found
    rwa [Nat.zero_add] at resolved
  climbs := by
    intro index atom found other
    refine (layered_of_build built).before found ?_
    cases atom with
    | rule target => exact absurd rfl (other target)
    | _ => rfl
  sound := fault?_of_build built

/-- In whatever order the references that wait are filled in, what is built is the same. -/
theorem finish_eq_ok_iff_build {order : List (Nat × String)}
    (any : order.Perm (ofRules rules).pending) :
    (ofRules rules).finish order = .ok grammar ↔ build rules = .ok grammar :=
  (finish_eq_ok_iff any).trans (finish_eq_ok_iff (.refl _)).symm

/-- A builder that has taken some rules fills in the references that wait, in any order. This
succeeds exactly if there is a rule, every name that is referred to anywhere is that of a rule, and
no repetition has an upper bound below its lower bound. Then the first rule's name gives the root,
names stand for what they were last given to, references point to the atom of their rule and all
other atoms to earlier ones. The order shows in nothing but in which one is named of the names that
no rule has. -/
theorem build_resolves (rules : Rules) (order : List (Nat × String))
    (any : order.Perm (ofRules rules).pending) :
    ((∃ grammar, (ofRules rules).finish order = .ok grammar) ↔
      rules ≠ [] ∧ (∀ name, .reference name ∈ listingOf rules → name ∈ rules.map (·.1)) ∧
        Expr.Ordered (listingOf rules)) ∧
    (∀ grammar, (ofRules rules).finish order = .ok grammar →
      BuiltFrom rules grammar ∧ build rules = .ok grammar) ∧
    ((∃ name, .reference name ∈ listingOf rules ∧ name ∉ rules.map (·.1)) →
      ∃ name, .reference name ∈ listingOf rules ∧ name ∉ rules.map (·.1) ∧
        (ofRules rules).finish order = .error (.undefinedRule name)) := by
  simp only [finish_eq_ok_iff_build any]
  refine ⟨exists_build_iff, fun _ built => ⟨builtFrom_of_build built, built⟩, ?_⟩
  simp only [listingOf, ← mem_allReferences_iff]
  rintro ⟨name, used, absent⟩
  obtain ⟨other, waits, unknown, failed⟩ :=
    finish_of_unknown any used (get?_ruleMap_of_absent absent)
  refine ⟨other, waits, fun named => ?_, failed⟩
  obtain ⟨body, defined⟩ := isSome_iff_exists.mp (isSome_bodyOf?_iff.mpr named)
  have found := known_of_defined defined
  rw [unknown] at found
  cases found

end

/-- The second definition of a root, which refers to itself. -/
def secondRoot : Expr := .sequence [.reference "item", .reference "root"]

/-- Rules of which the first one is replaced by the last one. -/
def redefined : Rules :=
  [("root", .reference "item"), ("item", .repetition (.literal "x") 1 (some 2)),
    ("root", secondRoot)]

/-- The root is the second definition of its name, and the reference in the first one is resolved
all the same, although it is not the first to be filled in. -/
theorem build_redefined : ∃ grammar, build redefined = .ok grammar ∧
    (ofRules redefined).finish [(4, "root"), (0, "item"), (3, "item")] = .ok grammar ∧
    grammar.root = 5 ∧ grammar.atoms[0]? = some (.rule 2) := by
  obtain ⟨succeeds, resolves, -⟩ :=
    build_resolves redefined [(4, "root"), (0, "item"), (3, "item")] (by decide)
  have listing : listingOf redefined =
      [.reference "item", .literal "x", .repetition (.literal "x") 1 (some 2), .reference "item",
        .reference "root", secondRoot] := rfl
  have defined : ∀ name, .reference name ∈ listingOf redefined →
      name ∈ redefined.map (·.1) := by
    intro name used
    have names : name = "item" ∨ name = "root" := by simpa [listing, secondRoot] using used
    rcases names with rfl | rfl <;> decide
  have ordered : Expr.Ordered (listingOf redefined) := by
    intro inner least most used
    obtain ⟨-, rfl, rfl⟩ : inner = .literal "x" ∧ least = 1 ∧ most = 2 := by
      simpa [listing, secondRoot] using used
    decide
  obtain ⟨grammar, finished⟩ := succeeds.mpr ⟨cons_ne_nil _ _, defined, ordered⟩
  obtain ⟨made, built⟩ := resolves grammar finished
  obtain ⟨item, -⟩ := made.last [("root", .reference "item")] "item"
    (.repetition (.literal "x") 1 (some 2)) [("root", secondRoot)] rfl (by decide)
  obtain ⟨root, -⟩ := made.last (redefined.take 2) "root" secondRoot [] rfl (by decide)
  refine ⟨grammar, built, finished, ?_, ?_⟩
  · obtain ⟨rule, first, found⟩ := made.root
    cases first
    exact some.inj (found.symm.trans root)
  · have inside : 0 < grammar.atoms.size := by
      rw [made.size]
      exact Nat.zero_lt_succ _
    have found := Array.getElem?_eq_getElem inside
    have resolved := made.resolved 0 (.reference "item") _ rfl found
    rw [found]
    generalize grammar.atoms[0] = atom at resolved
    cases resolved with
    | reference known => exact congrArg (some ∘ Atom.rule) (some.inj (known.symm.trans item))

end Grammar

end Reflow
