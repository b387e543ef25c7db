import Reflow.Regex.Machine.Paths

/-!
# Following all states at once

A machine keeps one list of states in order of preference and drops a state that it has reached
before. `run_arrive` says that nothing is lost by that: if every state leads to an answer, the run
gives the first one. Hence a machine finds the first of the ends of a steady expression
(`runAt_ofRegex`).
-/

namespace Reflow

open List

variable {known : Anchor → Bool} {steps : Array Step} {early : Bool} {c : Char} {rest : Text}
  {states : List Nat} {height state : Nat} {weight : Nat → Option Text}
  {before : Option Char} {reached' : Reached} {site : Site}

/-! ## Answers of states -/

open Classical in
/-- The answer to which a state leads at a site, nothing if it leads nowhere. -/
noncomputable def answerAt (steps : Array Step) (site : Site) (state : Nat) : Option Text :=
  if leads : ∃ answer height, Leads steps height state site answer then leads.choose else none

variable {answer : Option Text} {reached : Reached}

/-- A state has the answer to which it leads. -/
theorem Leads.answerAt_eq (leads : Leads steps height state site answer) :
    answerAt steps site state = answer := by
  have found : ∃ answer height, Leads steps height state site answer := ⟨answer, height, leads⟩
  rw [answerAt, dif_pos found]
  obtain ⟨_, chosen⟩ := found.choose_spec
  exact (chosen.unique leads).2

/-- Whether a state leads to an answer at a site. -/
def IsSound (steps : Array Step) (site : Site) (state : Nat) : Prop :=
  ∃ height answer, Leads steps height state site answer

/-! ## Counting the states that were not reached -/

theorem countP_lt_countP {α : Type} {test other : α → Bool} {items : List α} {item : α}
    (weaker : ∀ item, other item → test item) (member : item ∈ items)
    (passes : test item) (fails : other item = false) :
    items.countP other < items.countP test := by
  induction items with
  | nil => simp at member
  | cons head tail ih =>
    have tailLe : tail.countP other ≤ tail.countP test :=
      countP_mono_left fun item _ => weaker item
    rw [countP_cons, countP_cons]
    rcases mem_cons.mp member with rfl | member
    · rw [passes, fails]
      simp
      omega
    · have tailLt := ih member
      cases headTest : other head with
      | false =>
        simp only [Bool.false_eq_true, if_false]
        omega
      | true =>
        rw [weaker head headTest]
        omega

/-- Number of states that were not reached. -/
def unreached (steps : Array Step) (seen : Std.HashSet Nat) : Nat :=
  (List.range steps.size).countP fun state => !seen.contains state

/-- Reaching one more state leaves fewer. -/
theorem unreached_insert_lt {seen : Std.HashSet Nat} (inside : state < steps.size)
    (fresh : seen.contains state = false) :
    unreached steps (seen.insert state) < unreached steps seen := by
  refine countP_lt_countP ?_ (mem_range.mpr inside) ?_ ?_
  · intro other outside
    simp only [Std.HashSet.contains_insert, Bool.not_eq_true', Bool.or_eq_false_iff] at outside ⊢
    exact outside.2
  · simp [fresh]
  · simp

/-- Reaching more states leaves no more. -/
theorem unreached_le_of_subset {seen seen' : Std.HashSet Nat}
    (more : ∀ state, seen.contains state → seen'.contains state) :
    unreached steps seen' ≤ unreached steps seen := by
  apply countP_mono_left
  intro state _ outside
  simp only [Bool.not_eq_true'] at outside ⊢
  cases found : seen.contains state with
  | false => rfl
  | true => simp [more state found] at outside

/-! ## Reaching states -/

/-- A weight of the states in which a machine stays: the answer to which the state leads, or nothing
if the state is a condition that was passed, since what is behind it is reached as well. -/
structure Weighs (steps : Array Step) (known : Anchor → Bool) (site : Site)
    (weight : Nat → Option Text) : Prop where
  decided : ∀ condition, known condition → condition.holds site
  accept : ∀ state : Nat, steps[state]? = some .accept → weight state = answerAt steps site state
  read : ∀ (state : Nat) chars next, steps[state]? = some (.read chars next) →
    weight state = answerAt steps site state
  waiting : ∀ (state : Nat) condition next, steps[state]? = some (.check condition next) →
    known condition = false → weight state = answerAt steps site state
  passed : ∀ (state : Nat) condition next, steps[state]? = some (.check condition next) →
    known condition → weight state = none ∨ weight state = answerAt steps site state

/-- The first weight among the states reached. -/
def Reached.first (weight : Nat → Option Text) (reached : Reached) : Option Text :=
  reached.states.reverse.findSome? weight

/-- One more state is weighed last. -/
theorem Reached.first_cons (weight : Nat → Option Text) (seen : Std.HashSet Nat)
    (state : Nat) (states : List Nat) :
    Reached.first weight ⟨seen, state :: states⟩ =
      (Reached.first weight ⟨seen, states⟩).or (weight state) := by
  simp [Reached.first, List.findSome?_append]

/-- A state whose answer is known once the states reached have no weight. -/
def Settled (steps : Array Step) (site : Site) (weight : Nat → Option Text)
    (reached : Reached) (state : Nat) : Prop :=
  ∀ height answer, Leads steps height state site answer → reached.first weight = none →
    answer = none

/-- What reaching a state does: its answer is weighed last, nothing is forgotten, and all states
seen on the way are settled. -/
structure Reaches (steps : Array Step) (site : Site) (weight : Nat → Option Text)
    (reached reached' : Reached) (answer : Option Text) : Prop where
  first : reached'.first weight = (reached.first weight).or answer
  seen : ∀ state, reached.seen.contains state → reached'.seen.contains state
  settled : ∀ state, reached'.seen.contains state → reached.seen.contains state ∨
    Settled steps site weight reached' state
  sound : ∀ state ∈ reached'.states, state ∈ reached.states ∨ IsSound steps site state

/-- A state that is settled stays so when states are reached after those that are there. -/
theorem Settled.mono (settled : Settled steps site weight reached state)
    (back : reached'.first weight = none → reached.first weight = none) :
    Settled steps site weight reached' state :=
  fun height answer leads empty => settled height answer leads (back empty)

/-- A state that leads to the answer that was weighed last is settled. -/
theorem Leads.settled {before : Option Text} (leads : Leads steps height state site answer)
    (first : reached'.first weight = before.or answer) :
    Settled steps site weight reached' state := by
  intro higher other leads' empty
  obtain ⟨-, rfl⟩ := leads.unique leads'
  rw [first, Option.or_eq_none_iff] at empty
  exact empty.2

theorem Reaches.trans {middle : Reached} {other : Option Text}
    (before : Reaches steps site weight reached middle answer)
    (after : Reaches steps site weight middle reached' other) :
    Reaches steps site weight reached reached' (answer.or other) where
  first := by rw [after.first, before.first, Option.or_assoc]
  seen := fun state found => after.seen state (before.seen state found)
  settled := by
    intro state found
    rcases after.settled state found with found | settled
    · rcases before.settled state found with found | settled
      · exact .inl found
      · refine .inr (settled.mono fun empty => ?_)
        rw [after.first, Option.or_eq_none_iff] at empty
        exact empty.1
    · exact .inr settled
  sound := by
    intro state member
    rcases after.sound state member with member | sound
    · exact before.sound state member
    · exact .inr sound

/-- What is reached behind a state is reached from it: the state may be kept among those to stay in
if it has no weight beyond that of its answer. -/
theorem Reaches.behind (leads : Leads steps height state site answer)
    (kept : states = reached.states ∨ states = state :: reached.states)
    (weightless : (Reached.first weight ⟨reached.seen.insert state, states⟩).or answer =
      (reached.first weight).or answer)
    (after : Reaches steps site weight ⟨reached.seen.insert state, states⟩ reached' answer) :
    Reaches steps site weight reached reached' answer where
  first := after.first.trans weightless
  seen := fun other found => after.seen other (by simp [found])
  settled := by
    intro other found
    rcases after.settled other found with found | settled
    · simp only [Std.HashSet.contains_insert, Bool.or_eq_true, beq_iff_eq] at found
      rcases found with rfl | found
      · exact .inr (leads.settled after.first)
      · exact .inl found
    · exact .inr settled
  sound := by
    intro other member
    rcases after.sound other member with member | sound
    · rcases kept with rfl | rfl
      · exact .inl member
      · rcases mem_cons.mp member with rfl | member
        · exact .inr ⟨height, answer, leads⟩
        · exact .inl member
    · exact .inr sound

/-- A state that is stayed in with its own answer as weight. -/
theorem Reaches.stay (reached : Reached) (leads : Leads steps height state site answer)
    (weighed : weight state = answerAt steps site state) :
    Reaches steps site weight reached ⟨reached.seen.insert state, state :: reached.states⟩
      answer where
  first := by
    rw [Reached.first_cons, weighed, leads.answerAt_eq]
    rfl
  seen := fun other found => by simp [found]
  settled := by
    intro other found
    simp only [Std.HashSet.contains_insert, Bool.or_eq_true, beq_iff_eq] at found
    rcases found with rfl | found
    · have first : Reached.first weight ⟨reached.seen.insert state, state :: reached.states⟩ =
          (reached.first weight).or answer := by
        rw [Reached.first_cons, weighed, leads.answerAt_eq]
        rfl
      exact .inr (leads.settled first)
    · exact .inl found
  sound := by
    intro other member
    rcases mem_cons.mp member with rfl | member
    · exact .inr ⟨height, answer, leads⟩
    · exact .inl member

namespace Machine

variable {machine : Machine}

/-- Reaching a state that leads to an answer, where the states seen before that could be met again
are settled. -/
theorem reaches_reach (weighs : Weighs machine.steps known site weight) (fuel : Nat)
    (reached : Reached) (height state : Nat) (answer : Option Text)
    (leads : Leads machine.steps height state site answer)
    (enough : unreached machine.steps reached.seen < fuel)
    (settled : ∀ other lower result, reached.seen.contains other →
      Leads machine.steps lower other site result → lower ≤ height →
      reached.first weight = none → result = none) :
    Reaches machine.steps site weight reached (machine.reach known fuel reached state) answer := by
  induction fuel generalizing reached height state answer with
  | zero => omega
  | succ fuel ih =>
    unfold reach
    cases seen : reached.seen.contains state with
    | true =>
      simp only [if_true]
      refine ⟨?_, fun _ found => found, fun _ found => .inl found, fun _ found => .inl found⟩
      cases found : reached.first weight with
      | none => rw [settled state height answer seen leads (Nat.le_refl _) found]; rfl
      | some _ => rfl
    | false =>
      simp only [Bool.false_eq_true, if_false]
      have fewer : ∀ {step : Step}, machine.steps[state]? = some step →
          unreached machine.steps (reached.seen.insert state) < fuel := by
        intro step found
        have inside : state < machine.steps.size := by
          rcases Nat.lt_or_ge state machine.steps.size with inside | outside
          · exact inside
          · rw [Array.getElem?_eq_none outside] at found
            simp at found
        have := unreached_insert_lt inside seen
        omega
      have fresh : ∀ {states : List Nat} {lower : Nat}, lower < height →
          (Reached.first weight ⟨reached.seen.insert state, states⟩ = none →
            reached.first weight = none) →
          ∀ other least result, (reached.seen.insert state).contains other →
            Leads machine.steps least other site result → least ≤ lower →
            Reached.first weight ⟨reached.seen.insert state, states⟩ = none → result = none := by
        intro states lower below back other least result found leads' small empty
        simp only [Std.HashSet.contains_insert, Bool.or_eq_true, beq_iff_eq] at found
        rcases found with rfl | found
        · have := (leads.unique leads').1
          omega
        · exact settled other least result found leads' (by omega) (back empty)
      cases leads with
      | accept step =>
        simp only [step]
        exact .stay reached (.accept step) (weighs.accept state step)
      | take step member behind =>
        simp only [step]
        exact .stay reached (.take step member behind) (weighs.read state _ _ step)
      | refuse step member =>
        simp only [step]
        exact .stay reached (.refuse step member) (weighs.read state _ _ step)
      | exhausted step =>
        simp only [step]
        exact .stay reached (.exhausted step) (weighs.read state _ _ step)
      | block step fails =>
        simp only [step]
        cases passed : known _ with
        | true => simp [weighs.decided _ passed] at fails
        | false =>
          simp only [Bool.false_eq_true, if_false]
          exact .stay reached (.block step fails) (weighs.waiting state _ _ step passed)
      | pass step holds behind =>
        simp only [step]
        cases passed : known _ with
        | false =>
          simp only [Bool.false_eq_true, if_false]
          exact .stay reached (.pass step holds behind) (weighs.waiting state _ _ step passed)
        | true =>
          simp only [if_true]
          have whole : Leads machine.steps _ state site answer := .pass step holds behind
          refine .behind whole (.inr rfl) ?_ (ih _ _ _ _ behind (fewer step) ?_)
          · rw [Reached.first_cons, Option.or_assoc]
            rcases weighs.passed state _ _ step passed with noneEq | same
            · rw [noneEq]; rfl
            · rw [same, whole.answerAt_eq, Option.or_self]; rfl
          · refine fresh (Nat.lt_succ_self _) fun empty => ?_
            rw [Reached.first_cons, Option.or_eq_none_iff] at empty
            exact empty.1
      | fork step left right =>
        simp only [step]
        have whole := Leads.fork step left right
        have before := ih ⟨reached.seen.insert state, reached.states⟩ _ _ _ left (fewer step)
          (fresh (by omega) id)
        refine .behind whole (.inl rfl) rfl (before.trans (ih _ _ _ _ right ?_ ?_))
        · exact Nat.lt_of_le_of_lt (unreached_le_of_subset before.seen) (fewer step)
        · intro other least result found leads' small empty
          rcases before.settled other found with found | settled
          · refine fresh (by omega) id other least result found leads' small ?_
            rw [before.first, Option.or_eq_none_iff] at empty
            exact empty.1
          · exact settled least result leads' empty

/-- Reaching states one after another, where all states seen before are settled. -/
theorem first_foldl_reach (weighs : Weighs machine.steps known site weight) (states : List Nat)
    (sound : ∀ state ∈ states, IsSound machine.steps site state) (reached : Reached)
    (settled : ∀ state, reached.seen.contains state →
      Settled machine.steps site weight reached state)
    (kept : ∀ state ∈ reached.states, IsSound machine.steps site state) :
    (states.foldl (machine.reach known (machine.steps.size + 1)) reached).first weight =
        (reached.first weight).or (states.findSome? (answerAt machine.steps site)) ∧
      ∀ state ∈ (states.foldl (machine.reach known (machine.steps.size + 1)) reached).states,
        IsSound machine.steps site state := by
  induction states generalizing reached with
  | nil => exact ⟨by simp, kept⟩
  | cons state states ih =>
    obtain ⟨height, answer, leads⟩ := sound state mem_cons_self
    have enough : unreached machine.steps reached.seen < machine.steps.size + 1 := by
      have all : (List.range machine.steps.size).length = machine.steps.size := length_range
      exact Nat.lt_succ_of_le (Nat.le_trans countP_le_length (Nat.le_of_eq all))
    have step := reaches_reach weighs (machine.steps.size + 1) reached height state answer leads
      enough fun other lower result found leads' _ empty =>
        settled other found lower result leads' empty
    have later := ih (forall_mem_cons.mp sound).2
      (machine.reach known (machine.steps.size + 1) reached state)
      (by
        intro other found
        rcases step.settled other found with found | settled'
        · refine (settled other found).mono fun empty => ?_
          rw [step.first, Option.or_eq_none_iff] at empty
          exact empty.1
        · exact settled')
      (by
        intro other member
        rcases step.sound other member with member | sound
        · exact kept other member
        · exact sound)
    refine ⟨?_, later.2⟩
    rw [foldl_cons, later.1, step.first, Option.or_assoc, List.findSome?_cons, leads.answerAt_eq]
    cases answer <;> rfl

/-- The states behind some states have the same first answer. -/
theorem findSome?_close (weighs : Weighs machine.steps known site weight) (states : List Nat)
    (sound : ∀ state ∈ states, IsSound machine.steps site state) :
    (machine.close known states).findSome? weight =
      states.findSome? (answerAt machine.steps site) := by
  have folded := (first_foldl_reach weighs states sound {} (by simp) (by simp)).1
  simpa [Reached.first, close] using folded

/-- The states behind some states that lead to answers do so, too. -/
theorem isSound_of_mem_close (weighs : Weighs machine.steps known site weight) (states : List Nat)
    (sound : ∀ state ∈ states, IsSound machine.steps site state) :
    ∀ state ∈ machine.close known states, IsSound machine.steps site state := by
  have folded := (first_foldl_reach weighs states sound {} (by simp) (by simp)).2
  intro state member
  exact folded state (by simpa [close] using member)

/-! ## Settled states -/

/-- The weight of a state when all conditions are decided. -/
noncomputable def finalWeight (machine : Machine) (site : Site) (state : Nat) :
    Option Text :=
  match machine.steps[state]? with
  | some .accept => some site.rest
  | some (.read _ _) => answerAt machine.steps site state
  | _ => none

theorem weighs_answerAt (machine : Machine)
    (decided : ∀ condition, known condition → condition.holds site) :
    Weighs machine.steps known site (answerAt machine.steps site) where
  decided := decided
  accept := fun _ _ => rfl
  read := fun _ _ _ _ => rfl
  waiting := fun _ _ _ _ _ => rfl
  passed := fun _ _ _ _ _ => .inr rfl

/-- A condition that fails leads to no answer. -/
theorem answerAt_check {next : Nat} {condition : Anchor}
    (step : steps[state]? = some (.check condition next)) (fails : condition.holds site = false) :
    answerAt steps site state = none :=
  (Leads.block step fails).answerAt_eq

/-- Final weights weigh the states when all conditions are decided. -/
theorem weighs_finalWeight (machine : Machine) (site : Site) :
    Weighs machine.steps (·.holds site) site (machine.finalWeight site) where
  decided := fun _ holds => holds
  accept := by
    intro state step
    rw [finalWeight, step, (Leads.accept step).answerAt_eq]
  read := by
    intro state chars next step
    rw [finalWeight, step]
  waiting := by
    intro state condition next step fails
    rw [finalWeight, step, answerAt_check step fails]
  passed := by
    intro state condition next step _
    rw [finalWeight, step]
    exact .inl rfl

/-- The weight of a state given which conditions are known to hold. -/
noncomputable def arrivalWeight (machine : Machine) (known : Anchor → Bool) (site : Site)
    (state : Nat) : Option Text :=
  match machine.steps[state]? with
  | some (.check condition _) =>
    if known condition then none else answerAt machine.steps site state
  | some (.fork _ _) => none
  | _ => answerAt machine.steps site state

theorem weighs_arrivalWeight (machine : Machine)
    (decided : ∀ condition, known condition → condition.holds site) :
    Weighs machine.steps known site (machine.arrivalWeight known site) where
  decided := decided
  accept := by
    intro state step
    rw [arrivalWeight, step]
  read := by
    intro state chars next step
    rw [arrivalWeight, step]
  waiting := by
    intro state condition next step waits
    rw [arrivalWeight, step]
    simp [waits]
  passed := by
    intro state condition next step passed
    rw [arrivalWeight, step]
    simp [passed]

/-- Searching with functions that agree on the list. -/
theorem findSome?_congr_mem {α β : Type} {items : List α} {f g : α → Option β}
    (same : ∀ item ∈ items, f item = g item) : items.findSome? f = items.findSome? g := by
  induction items with
  | nil => rfl
  | cons item rest ih =>
    rw [List.findSome?_cons, List.findSome?_cons, same item mem_cons_self,
      ih (forall_mem_cons.mp same).2]

/-- Conditions that are decided on arrival hold. -/
theorem holds_of_prompt (condition : Anchor)
    (known : (condition.holds site && isPrompt early condition) = true) :
    condition.holds site :=
  (Bool.and_eq_true_iff.mp known).1

/-- The states behind some states lead to answers on arrival. -/
theorem isSound_of_mem_arrive (sound : ∀ state ∈ states, IsSound machine.steps site state) :
    ∀ state ∈ machine.arrive early site states, IsSound machine.steps site state :=
  isSound_of_mem_close (weighs_answerAt machine holds_of_prompt) states sound

/-- A state that is neither due nor passed has its final weight. -/
theorem arrivalWeight_eq_finalWeight (sound : IsSound machine.steps site state)
    (idle : machine.isDue early site state = false) :
    machine.arrivalWeight (fun condition => condition.holds site && isPrompt early condition) site
      state = machine.finalWeight site state := by
  obtain ⟨height, answer, leads⟩ := sound
  unfold arrivalWeight finalWeight
  unfold isDue at idle
  cases found : machine.steps[state]? with
  | none => cases leads <;> simp_all
  | some step =>
    cases step with
    | accept => exact (Leads.accept found).answerAt_eq
    | read chars next => rfl
    | fork first second => rfl
    | check condition next =>
      rw [found] at idle
      rcases Bool.eq_false_or_eq_true (condition.holds site) with holds | fails
      · simp only [holds, Bool.true_and, Bool.not_eq_false'] at idle
        simp [holds, idle]
      · simp [fails, answerAt_check found fails]

/-- The states at a site when all conditions are decided have the first answer of those from which
they were reached. -/
theorem findSome?_settle_arrive (early : Bool)
    (sound : ∀ state ∈ states, IsSound machine.steps site state) :
    (machine.settle early site (machine.arrive early site states)).findSome?
      (machine.finalWeight site) = states.findSome? (answerAt machine.steps site) := by
  have sound' : ∀ state ∈ machine.arrive early site states, IsSound machine.steps site state :=
    isSound_of_mem_arrive sound
  unfold settle
  split
  · rw [findSome?_close (weighs_finalWeight machine site) _ sound']
    exact findSome?_close (weighs_answerAt machine holds_of_prompt) states sound
  · rename_i idle
    rw [← findSome?_close (weighs_arrivalWeight machine holds_of_prompt) states sound]
    refine (findSome?_congr_mem fun state member => ?_).symm
    refine arrivalWeight_eq_finalWeight (sound' state member) ?_
    simp only [any_eq_true, not_exists, not_and, Bool.not_eq_true] at idle
    exact idle state member

theorem isSound_of_mem_settle (sound : ∀ state ∈ states, IsSound machine.steps site state) :
    ∀ state ∈ machine.settle early site states, IsSound machine.steps site state := by
  unfold settle
  split
  · exact isSound_of_mem_close (weighs_finalWeight machine site) states sound
  · exact sound

/-! ## Running -/

/-- A state behind a character leads to an answer if the state before it does. -/
theorem isSound_of_next? {next : Nat} (sound : IsSound machine.steps ⟨before, c :: rest⟩ state)
    (taken : machine.next? c state = some next) : IsSound machine.steps ⟨some c, rest⟩ next := by
  obtain ⟨height, answer, leads⟩ := sound
  unfold next? at taken
  cases leads with
  | take step member behind =>
    rw [step] at taken
    simp only [member, if_true, Option.some.injEq] at taken
    exact taken ▸ ⟨_, _, behind⟩
  | _ => simp_all

/-- Where text is left, a state that does not accept has the answer of the state behind the next
character. -/
theorem finalWeight_cons (sound : IsSound machine.steps ⟨before, c :: rest⟩ state)
    (continues : machine.accepts state = false) :
    machine.finalWeight ⟨before, c :: rest⟩ state =
      (machine.next? c state).bind (answerAt machine.steps ⟨some c, rest⟩) := by
  obtain ⟨height, answer, leads⟩ := sound
  unfold finalWeight next?
  unfold accepts at continues
  cases found : machine.steps[state]? with
  | none => rfl
  | some step =>
    cases step with
    | accept => simp [found] at continues
    | check condition next => rfl
    | fork first second => rfl
    | read chars next =>
      simp only
      rw [leads.answerAt_eq]
      cases leads with
      | take step member behind =>
        simp only [found, Option.some.injEq, Step.read.injEq] at step
        obtain ⟨rfl, rfl⟩ := step
        simp [member, behind.answerAt_eq]
      | refuse step member =>
        simp only [found, Option.some.injEq, Step.read.injEq] at step
        obtain ⟨rfl, rfl⟩ := step
        simp [member]
      | _ => simp_all

/-- Where no text is left, only accepting states have an answer. -/
theorem findSome?_finalWeight_nil (states : List Nat) :
    states.findSome? (machine.finalWeight ⟨before, []⟩) =
      if states.any machine.accepts then some [] else none := by
  induction states with
  | nil => rfl
  | cons state states ih =>
    rw [List.findSome?_cons, ih, any_cons]
    unfold finalWeight accepts
    cases found : machine.steps[state]? with
    | none => simp
    | some step =>
      cases step with
      | read chars next => simp [(Leads.exhausted found).answerAt_eq]
      | _ => simp

/-- The first answer of settled states is that of the states behind the next character which are
preferred to the first accepting state, or else what is left, if a state accepts. -/
theorem findSome?_finalWeight_cons (states : List Nat)
    (sound : ∀ state ∈ states, IsSound machine.steps ⟨before, c :: rest⟩ state) :
    states.findSome? (machine.finalWeight ⟨before, c :: rest⟩) =
      (((states.takeWhile fun state => !machine.accepts state).filterMap
          (machine.next? c)).findSome? (answerAt machine.steps ⟨some c, rest⟩)).or
        (if states.any machine.accepts then some (c :: rest) else none) := by
  induction states with
  | nil => rfl
  | cons state states ih =>
    have ih := ih (forall_mem_cons.mp sound).2
    rw [List.findSome?_cons, any_cons, takeWhile_cons]
    cases acceptsEq : machine.accepts state with
    | true =>
      have weight : machine.finalWeight ⟨before, c :: rest⟩ state = some (c :: rest) := by
        unfold accepts at acceptsEq
        unfold finalWeight
        split at acceptsEq <;> simp_all
      simp [weight]
    | false =>
      rw [finalWeight_cons (sound state mem_cons_self) acceptsEq, ih]
      simp only [Bool.not_false, if_true, filterMap_cons, Bool.false_or]
      cases machine.next? c state with
      | none => rfl
      | some next =>
        simp only [Option.bind_some, List.findSome?_cons]
        cases answerAt machine.steps ⟨some c, rest⟩ next <;> rfl

/-- Following all states at once gives the first of their answers. -/
theorem run_arrive (machine : Machine) (early : Bool) (states : List Nat)
    (best : Option Text) (before : Option Char) (rest : Text)
    (sound : ∀ state ∈ states, IsSound machine.steps ⟨before, rest⟩ state) :
    machine.run early (machine.arrive early ⟨before, rest⟩ states) best before rest =
      (states.findSome? (answerAt machine.steps ⟨before, rest⟩)).or best := by
  induction rest generalizing states best before with
  | nil =>
    rw [run, ← findSome?_settle_arrive early sound, findSome?_finalWeight_nil]
    split <;> simp_all
  | cons c rest ih =>
    have settled : ∀ state ∈ machine.settle early ⟨before, c :: rest⟩
        (machine.arrive early ⟨before, c :: rest⟩ states),
        IsSound machine.steps ⟨before, c :: rest⟩ state :=
      isSound_of_mem_settle (isSound_of_mem_arrive sound)
    rw [run, ← findSome?_settle_arrive early sound, findSome?_finalWeight_cons _ settled,
      Option.or_assoc]
    generalize machine.settle early ⟨before, c :: rest⟩
      (machine.arrive early ⟨before, c :: rest⟩ states) = present at settled ⊢
    have bestEq : (if present.any machine.accepts then some (c :: rest) else none).or best =
        if present.any machine.accepts then some (c :: rest) else best := by
      split <;> rfl
    simp only [bestEq]
    have behind : ∀ state ∈ (present.takeWhile fun state => !machine.accepts state).filterMap
        (machine.next? c), IsSound machine.steps ⟨some c, rest⟩ state := by
      intro next member
      obtain ⟨state, live, taken⟩ := mem_filterMap.mp member
      exact isSound_of_next? (settled state (takeWhile_subset _ live)) taken
    split
    · rename_i noneLeft
      rw [noneLeft]
      rfl
    · exact ih _ _ _ behind

/-! ## Machines of steady expressions -/

/-- The machine of a steady expression finds the first of its ends. -/
theorem runAt_ofRegex (regex : Regex) (steady : regex.isSteady) (early : Bool) (site : Site) :
    (ofRegex regex).runAt early site = (regex.ends site).head?.map Site.rest := by
  have accepting : (ofRegex regex).steps[0]? = some .accept :=
    regex.extends_compile 0 #[.accept] 0 .accept rfl
  obtain ⟨height, leads⟩ := regex.leads_compile steady 0 #[.accept] (ofRegex regex).steps
    (.refl _) site (fun stop => some stop.rest) fun stop _ => ⟨0, .accept accepting⟩
  have sound : ∀ state ∈ [(ofRegex regex).start], IsSound (ofRegex regex).steps site state := by
    intro state member
    obtain rfl := mem_singleton.mp member
    exact ⟨height, _, leads⟩
  have answer : answerAt (ofRegex regex).steps site (ofRegex regex).start =
      (regex.ends site).findSome? fun stop => some stop.rest := leads.answerAt_eq
  rw [runAt, run_arrive _ _ _ _ _ _ sound]
  simp only [List.findSome?_cons, List.findSome?_nil, answer]
  cases regex.ends site with
  | nil => rfl
  | cons stop stops => rfl

/-- If an expression matches only where a text starts, its machine finds the first end there. -/
theorem find_ofRegex (regex : Regex) (steady : regex.isSteady)
    (anchored : regex.isAnchored) (text : Text) :
    (ofRegex regex).find text = (regex.ends ⟨none, text⟩).head?.map fun stop =>
      ⟨[], text.take (text.length - stop.rest.length), stop.rest⟩ := by
  have only : (ofRegex regex).anchored := anchored
  unfold find
  cases text with
  | nil =>
    rw [findFrom, runAt_ofRegex regex steady]
    cases regex.ends ⟨none, []⟩ <;> simp
  | cons c rest =>
    rw [findFrom, runAt_ofRegex regex steady, only]
    cases regex.ends ⟨none, c :: rest⟩ <;> simp

end Machine

end Reflow
