import Reflow.Grammar.Codec
import Reflow.Proofs.JsonRoundTrip

/-!
# Written grammars are read back

The text of a grammar is read as that grammar, whatever its texts and names hold, as long as its
numbers are within the range of natural numbers of JSON (`Grammar.InRange`). Reading the value of a
grammar gives the grammar (`Grammar.ofJson?_toJson`), and the value is determined by its text
(`Grammar.readable_toJson`).
-/

namespace Reflow

open Json List

/-! ## Values -/

/-- Items that are read back one by one are read back as an array. -/
theorem list?_map {α : Type} {item? : Json → Option α} {encode : α → Json} (items : List α)
    (back : ∀ item, item? (encode item) = some item) :
    list? item? (.array (items.map encode)) = some items := by
  induction items with
  | nil => rfl
  | cons item items ih =>
    simp only [list?] at ih ⊢
    simp [back, ih]

@[simp]
theorem nat?_jsonOfNat (n : Nat) : nat? (jsonOfNat n) = some n := rfl

theorem Atom.ofJson?_toJson (atom : Atom) : ofJson? atom.toJson = some atom := by
  have numbers := fun items : List Nat => list?_map items nat?_jsonOfNat
  cases atom with
  | sequence parts =>
    have read : ofJson? (sequence parts).toJson =
        (list? nat? (.array (parts.map jsonOfNat))).bind (some ∘ sequence) := rfl
    rw [read, numbers, Option.bind_some, Function.comp_apply]
  | choice options =>
    have read : ofJson? (choice options).toJson =
        (list? nat? (.array (options.map jsonOfNat))).bind (some ∘ choice) := rfl
    rw [read, numbers, Option.bind_some, Function.comp_apply]
  | repetition atom least most => cases most <;> rfl
  | _ => rfl

theorem Grammar.rules?_entries (rules : SortedMap Nat) :
    rules? (some (.object (rules.entries.map fun (name, atom) => (name, jsonOfNat atom)))) =
      some rules := by
  have read : ((rules.entries.map fun entry => (entry.1, jsonOfNat entry.2)).mapM
      fun member => (nat? member.2).map (member.1, ·)) = some rules.entries := by
    induction rules.entries with
    | nil => rfl
    | cons entry entries ih => simp [ih]
  have listed := congrArg (Option.bind · (some ∘ SortedMap.ofList)) read
  exact listed.trans (congrArg some rules.ofList_entries)

theorem Grammar.ofJson?_toJson (grammar : Grammar) : ofJson? grammar.toJson = some grammar := by
  have atoms := list?_map grammar.atoms.toList Atom.ofJson?_toJson
  have rules := rules?_entries grammar.rules
  simp [toJson, ofJson?, fields?, atoms, rules]

/-! ## Texts -/

def Atom.numbers : Atom → List Nat
  | .repetition atom least most => atom :: least :: most.toList
  | atom => atom.children

def Grammar.numbers (grammar : Grammar) : List Nat :=
  grammar.root :: grammar.atoms.toList.flatMap Atom.numbers ++ grammar.rules.entries.map (·.2)

def Grammar.InRange (grammar : Grammar) : Prop := ∀ n ∈ grammar.numbers, n < 2 ^ 64

instance (grammar : Grammar) : Decidable grammar.InRange :=
  inferInstanceAs (Decidable (∀ n ∈ grammar.numbers, n < 2 ^ 64))

theorem Atom.readable_toJson {atom : Atom} (inRange : ∀ n ∈ atom.numbers, n < 2 ^ 64) :
    Readable atom.toJson := by
  cases atom with
  | repetition atom least most =>
    cases most <;> simp_all [toJson, numbers, jsonOfNat, jsonOfOption]
  | sequence | choice => simpa [toJson, numbers, children, jsonOfNat] using inRange
  | _ =>
    simp_all [toJson, numbers, children, jsonOfNat]

theorem Grammar.readable_toJson {grammar : Grammar} (inRange : grammar.InRange) :
    Readable grammar.toJson := by
  have atoms : ∀ atom ∈ grammar.atoms.toList, Readable atom.toJson := by
    intro atom member
    refine Atom.readable_toJson fun n held => inRange n (mem_append_left _ ?_)
    exact mem_cons_of_mem _ (mem_flatMap.2 ⟨atom, member, held⟩)
  have root : Readable (jsonOfNat grammar.root) :=
    .natural (inRange _ (mem_append_left _ mem_cons_self))
  have rules : ∀ entry ∈ grammar.rules.entries, Readable (jsonOfNat entry.2) := fun entry member =>
    .natural (inRange _ (mem_append_right _ (mem_map_of_mem member)))
  simp only [toJson, readable_object, readable_array, forall_mem_cons, forall_mem_map]
  exact ⟨atoms, root, rules, forall_mem_nil _⟩

/-- What is written for a grammar is read as that grammar. -/
theorem Grammar.ofText?_toText (grammar : Grammar) (inRange : grammar.InRange) :
    ofText? grammar.toText = some grammar := by
  rw [ofText?, toText, parse?_text (readable_toJson inRange), Option.bind_some, ofJson?_toJson]

/-- A grammar with characters that are escaped, a missing and a present upper bound, a number at the
edge of the range and rules. -/
def intricate : Grammar where
  atoms := #[.literal "say \"\\\" → \u0000\u001f\u007f 😀", .regex "[\\s\t]+/",
    .repetition 0 1 none, .repetition 1 0 (some (2 ^ 64 - 1)), .sequence [2, 3, 2], .choice [],
    .capture "a\nb" 4, .rule 6, .lookahead 7 false, .flat (2 ^ 64 - 1)]
  root := 8
  rules := .ofList [("\"", 7), ("é", 2 ^ 64 - 1), ("", 0)]

theorem ofText?_toText_intricate :
    intricate.InRange ∧ Grammar.ofText? intricate.toText = some intricate := by
  have inRange : intricate.InRange := by decide
  exact ⟨inRange, Grammar.ofText?_toText intricate inRange⟩

end Reflow
