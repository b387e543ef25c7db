import Reflow.Regex.Ends
import Reflow.Regex.Machine

/-!
# Paths through a machine

`Leads` is what a machine means when every path is followed on its own: a fork takes the answer of
its first way and, failing that, of its second. The height counts the steps before the next
character is read, so a state that comes back to itself without reading leads nowhere.

Main statement: the states of a steady expression lead to the answer at the first of its ends that
has one (`leads_compile`).
-/

namespace Reflow

open List

/-- Following all paths from a state at a site gives an answer: what is left behind the preferred
match, or nothing. -/
inductive Leads (steps : Array Step) : Nat → Nat → Site → Option Text → Prop where
  | accept {state : Nat} {site : Site} (step : steps[state]? = some .accept) :
      Leads steps 0 state site (some site.rest)
  | take {later state next : Nat} {chars : CharClass} {before : Option Char} {c : Char}
      {rest : Text} {answer : Option Text}
      (step : steps[state]? = some (.read chars next)) (member : chars.test c)
      (behind : Leads steps later next ⟨some c, rest⟩ answer) :
      Leads steps 0 state ⟨before, c :: rest⟩ answer
  | refuse {state next : Nat} {chars : CharClass} {before : Option Char} {c : Char}
      {rest : Text} (step : steps[state]? = some (.read chars next))
      (member : chars.test c = false) :
      Leads steps 0 state ⟨before, c :: rest⟩ none
  | exhausted {state next : Nat} {chars : CharClass} {before : Option Char}
      (step : steps[state]? = some (.read chars next)) :
      Leads steps 0 state ⟨before, []⟩ none
  | pass {height state next : Nat} {condition : Anchor} {site : Site}
      {answer : Option Text} (step : steps[state]? = some (.check condition next))
      (holds : condition.holds site) (behind : Leads steps height next site answer) :
      Leads steps (height + 1) state site answer
  | block {state next : Nat} {condition : Anchor} {site : Site}
      (step : steps[state]? = some (.check condition next))
      (fails : condition.holds site = false) :
      Leads steps 0 state site none
  | fork {low high state first second : Nat} {site : Site} {answer other : Option Text}
      (step : steps[state]? = some (.fork first second))
      (left : Leads steps low first site answer)
      (right : Leads steps high second site other) :
      Leads steps (max low high + 1) state site (answer.or other)

variable {steps code : Array Step}

/-- A state leads to one answer only, in one number of steps. -/
theorem Leads.unique {height higher state : Nat} {site : Site} {answer other : Option Text}
    (leads : Leads steps height state site answer) (leads' : Leads steps higher state site other) :
    height = higher ∧ answer = other := by
  induction leads generalizing higher other with
  | accept step => cases leads' <;> simp_all
  | take step member behind ih =>
    cases leads' with
    | take step' member' behind' =>
      have same := step.symm.trans step'
      simp only [Option.some.injEq, Step.read.injEq] at same
      rw [← same.2] at behind'
      exact ⟨rfl, (ih behind').2⟩
    | _ => simp_all
  | refuse step member => cases leads' <;> simp_all
  | exhausted step => cases leads' <;> simp_all
  | pass step holds behind ih =>
    cases leads' with
    | pass step' holds' behind' =>
      have same := step.symm.trans step'
      simp only [Option.some.injEq, Step.check.injEq] at same
      rw [← same.2] at behind'
      obtain ⟨rfl, rfl⟩ := ih behind'
      exact ⟨rfl, rfl⟩
    | _ => simp_all
  | block step fails => cases leads' <;> simp_all
  | fork step left right ihLeft ihRight =>
    cases leads' with
    | fork step' left' right' =>
      have same := step.symm.trans step'
      simp only [Option.some.injEq, Step.fork.injEq] at same
      rw [← same.1] at left'
      rw [← same.2] at right'
      obtain ⟨rfl, rfl⟩ := ihLeft left'
      obtain ⟨rfl, rfl⟩ := ihRight right'
      exact ⟨rfl, rfl⟩
    | _ => simp_all

/-! ## Compilation -/

/-- One list of states has all states of another. -/
def Extends (code steps : Array Step) : Prop :=
  ∀ (state : Nat) (step : Step), steps[state]? = some step → code[state]? = some step

namespace Extends

theorem refl (steps : Array Step) : Extends steps steps := fun _ _ step => step

theorem trans {middle : Array Step} (outer : Extends code middle) (inner : Extends middle steps) :
    Extends code steps :=
  fun state step found => outer state step (inner state step found)

theorem push (steps : Array Step) (step : Step) : Extends (steps.push step) steps := by
  intro state found atState
  have inside : state < steps.size := by
    rcases Nat.lt_or_ge state steps.size with inside | outside
    · exact inside
    · rw [Array.getElem?_eq_none outside] at atState
      simp at atState
  rw [Array.getElem?_push_lt inside, ← atState, Array.getElem?_eq_getElem inside]

end Extends

namespace Regex

theorem extends_compile (regex : Regex) (next : Nat) (steps : Array Step) :
    Extends (regex.compile next steps).2 steps := by
  induction regex generalizing next steps with
  | empty => exact .refl steps
  | set | anchor => exact .push steps _
  | seq first second ihFirst ihSecond => exact (ihFirst _ _).trans (ihSecond _ _)
  | alt left right ihLeft ihRight =>
    exact (Extends.push _ _).trans ((ihRight _ _).trans (ihLeft _ _))
  | star greedy inner ih | plus greedy inner ih => exact (Extends.push _ _).trans (ih _ _)

/-- Compiling adds as many states as counted. -/
theorem size_compile (regex : Regex) (next : Nat) (steps : Array Step) :
    (regex.compile next steps).2.size = steps.size + regex.size := by
  induction regex generalizing next steps with
  | empty => rfl
  | set | anchor => simp [compile, size]
  | seq first second ihFirst ihSecond =>
    simp only [compile, size, ihFirst, ihSecond]
    omega
  | alt left right ihLeft ihRight =>
    simp only [compile, size, Array.size_push, ihLeft, ihRight]
    omega
  | star greedy inner ih | plus greedy inner ih =>
    simp only [compile, size, Array.size_push, ih]
    omega

theorem getElem?_of_extends_push {step : Step} (whole : Extends code (steps.push step)) :
    code[steps.size]? = some step :=
  whole _ _ Array.getElem?_push_size

/-- Searching the first acceptable element of a concatenation of lists. -/
theorem findSome_flatMap {α β γ : Type} (items : List α) (f : α → List β) (accept : β → Option γ) :
    (items.flatMap f).findSome? accept = items.findSome? fun item => (f item).findSome? accept := by
  induction items with
  | nil => rfl
  | cons item rest ih =>
    simp only [flatMap_cons, List.findSome?_append, List.findSome?_cons, ih]
    cases (f item).findSome? accept <;> rfl

variable {answer : Site → Option Text}

/-- A fork of a loop leads to another round or out of the loop, in order of preference. -/
theorem leads_loopFork {greedy : Bool} {low high state again leave : Nat} {site : Site}
    {more : List Site} (step : code[state]? = some (loopFork greedy again leave))
    (round : Leads code low again site (more.findSome? answer))
    (leaving : Leads code high leave site (answer site)) :
    ∃ height, Leads code height state site ((loopOrder greedy more site).findSome? answer) := by
  cases greedy with
  | true =>
    have both := Leads.fork step round leaving
    rw [loopOrder, if_pos rfl, List.findSome?_append]
    exact ⟨_, by simpa using both⟩
  | false =>
    have both := Leads.fork step leaving round
    rw [loopOrder, if_neg (by simp), List.findSome?_cons]
    refine ⟨max high low + 1, ?_⟩
    cases found : answer site <;> simpa [found] using both

/-- Where a loop is left with an answer, its fork leads to the answer at the first of its ends that
has one. -/
theorem leads_loop {greedy : Bool} {inner : Regex} {state again leave : Nat}
    (consuming : inner.consumes) (step : code[state]? = some (loopFork greedy again leave))
    (body : ∀ (site : Site) (later : Site → Option Text),
      (∀ stop ∈ inner.ends site, ∃ height, Leads code height state stop (later stop)) →
      ∃ height, Leads code height again site ((inner.ends site).findSome? later)) (site : Site)
    (leaving : ∀ stop ∈ loopEnds inner.ends greedy site.rest.length site,
      ∃ height, Leads code height leave stop (answer stop)) :
    ∃ height, Leads code height state site
      ((loopEnds inner.ends greedy site.rest.length site).findSome? answer) := by
  have shrinks : ∀ site, ∀ stop ∈ inner.ends site, stop.rest.length < site.rest.length :=
    fun _ _ taken => length_lt_of_mem_ends consuming taken
  generalize size : site.rest.length = length
  induction length using Nat.strongRecOn generalizing site with
  | ind length ih =>
    subst size
    rw [loopEnds_length shrinks] at leaving ⊢
    have members : ∀ stop, stop = site ∨
        (∃ next ∈ inner.ends site, stop ∈ loopEnds inner.ends greedy next.rest.length next) →
        stop ∈ loopOrder greedy ((inner.ends site).flatMap fun next =>
          loopEnds inner.ends greedy next.rest.length next) site := by
      intro stop member
      cases greedy <;> simpa [loopOrder, mem_flatMap, or_comm] using member
    obtain ⟨_, round⟩ := body site
      (fun next => (loopEnds inner.ends greedy next.rest.length next).findSome? answer)
      (fun next taken => ih next.rest.length (shrinks site next taken) next
        (fun stop reached => leaving stop (members stop (.inr ⟨next, taken, reached⟩))) rfl)
    obtain ⟨_, out⟩ := leaving site (members site (.inl rfl))
    rw [← findSome_flatMap] at round
    exact leads_loopFork step round out

/-- The states of a loop lead to the answer at the first of its ends that has one, if those of its
rounds do. -/
theorem leads_rounds {greedy : Bool} {inner : Regex} {next : Nat} {steps : Array Step}
    (consuming : inner.consumes)
    (whole : Extends code ((inner.compile (steps.size + inner.size) steps).2.push
      (loopFork greedy (inner.compile (steps.size + inner.size) steps).1 next)))
    (body : ∀ (site : Site) (later : Site → Option Text),
      (∀ stop ∈ inner.ends site,
        ∃ height, Leads code height (steps.size + inner.size) stop (later stop)) →
      ∃ height, Leads code height (inner.compile (steps.size + inner.size) steps).1 site
        ((inner.ends site).findSome? later)) :
    ∀ site : Site, (∀ stop ∈ loopEnds inner.ends greedy site.rest.length site,
        ∃ height, Leads code height next stop (answer stop)) →
      ∃ height, Leads code height (steps.size + inner.size) site
        ((loopEnds inner.ends greedy site.rest.length site).findSome? answer) := by
  have step := getElem?_of_extends_push whole
  rw [size_compile] at step
  exact leads_loop consuming step body

/-- The states of a steady expression lead to the answer at the first of its ends that has one. -/
theorem leads_compile (regex : Regex) (steady : regex.isSteady) (next : Nat)
    (steps code : Array Step) (whole : Extends code (regex.compile next steps).2) (site : Site)
    (answer : Site → Option Text)
    (behind : ∀ stop ∈ regex.ends site, ∃ height, Leads code height next stop (answer stop)) :
    ∃ height, Leads code height (regex.compile next steps).1 site
      ((regex.ends site).findSome? answer) := by
  induction regex generalizing next steps site answer with
  | empty =>
    obtain ⟨height, leads⟩ := behind site (mem_singleton.mpr rfl)
    exact ⟨height, by simpa [ends, compile] using leads⟩
  | set chars =>
    have step : code[steps.size]? = some (.read chars next) := getElem?_of_extends_push whole
    obtain ⟨before, rest⟩ := site
    cases rest with
    | nil => exact ⟨0, .exhausted step⟩
    | cons c rest =>
      cases member : chars.test c with
      | false =>
        refine ⟨0, ?_⟩
        simp only [ends, member]
        exact .refuse step member
      | true =>
        obtain ⟨height, leads⟩ := behind ⟨some c, rest⟩ (by simp [ends, member])
        refine ⟨0, ?_⟩
        simp only [ends, member]
        exact .take step member (by simpa using leads)
  | anchor condition =>
    have step : code[steps.size]? = some (.check condition next) := getElem?_of_extends_push whole
    cases holds : condition.holds site with
    | false =>
      refine ⟨0, ?_⟩
      simp only [ends, holds]
      exact .block step holds
    | true =>
      obtain ⟨height, leads⟩ := behind site (by simp [ends, holds])
      refine ⟨height + 1, ?_⟩
      simp only [ends, holds]
      exact .pass step holds (by simpa using leads)
  | seq first second ihFirst ihSecond =>
    simp only [isSteady, Bool.and_eq_true] at steady
    have inner : Extends code (second.compile next steps).2 :=
      whole.trans (extends_compile first _ _)
    have middle : ∀ stop ∈ first.ends site, ∃ height,
        Leads code height (second.compile next steps).1 stop
          ((second.ends stop).findSome? answer) :=
      fun stop taken => ihSecond steady.2 next steps inner stop answer
        fun last reached => behind last (mem_flatMap.mpr ⟨stop, taken, reached⟩)
    have result := ihFirst steady.1 _ _ whole site _ middle
    simpa only [ends, compile, findSome_flatMap] using result
  | alt left right ihLeft ihRight =>
    simp only [isSteady, Bool.and_eq_true] at steady
    have outer : Extends code (right.compile next (left.compile next steps).2).2 :=
      whole.trans (.push _ _)
    have inner : Extends code (left.compile next steps).2 :=
      outer.trans (extends_compile right _ _)
    obtain ⟨_, first⟩ := ihLeft steady.1 next steps inner site answer
      fun stop taken => behind stop (mem_append.mpr (.inl taken))
    obtain ⟨_, second⟩ := ihRight steady.2 next _ outer site answer
      fun stop taken => behind stop (mem_append.mpr (.inr taken))
    rw [ends, List.findSome?_append]
    exact ⟨_, .fork (getElem?_of_extends_push whole) first second⟩
  | star greedy inner ih =>
    simp only [isSteady, Bool.and_eq_true] at steady
    exact leads_rounds steady.1 whole (ih steady.2 _ steps (whole.trans (.push _ _))) site behind
  | plus greedy inner ih =>
    simp only [isSteady, Bool.and_eq_true] at steady
    have body := ih steady.2 (steps.size + inner.size) steps (whole.trans (.push _ _))
    have loop := fun stop (taken : stop ∈ inner.ends site) =>
      leads_rounds steady.1 whole body stop
        (fun last reached => behind last (mem_flatMap.mpr ⟨stop, taken, reached⟩))
    have result := body site _ loop
    simpa only [ends, compile, findSome_flatMap] using result

end Regex

end Reflow
