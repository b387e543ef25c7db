import Reflow.Regex.Basic

/-!
# Ends of a match

`Regex.ends` lists the sites where a match can end, the preferred one first: a choice prefers its
left side, a greedy loop one more round, a lazy one the fewest. The list is the meaning of an
expression whose loops take at least one character in every round, which `Regex.isSteady` checks.
-/

namespace Reflow.Regex

open List

/-- Whether every match takes at least one character. -/
def consumes : Regex → Bool
  | empty | anchor _ | star _ _ => false
  | set _ => true
  | seq first second => first.consumes || second.consumes
  | alt left right => left.consumes && right.consumes
  | plus _ inner => inner.consumes

/-- Whether every round of every loop takes at least one character. -/
def isSteady : Regex → Bool
  | empty | set _ | anchor _ => true
  | seq first second => first.isSteady && second.isSteady
  | alt left right => left.isSteady && right.isSteady
  | star _ inner | plus _ inner => inner.consumes && inner.isSteady

/-- The sites after another round, and the site where the loop may be left, in order of
preference. -/
def loopOrder (greedy : Bool) (more : List Site) (site : Site) : List Site :=
  if greedy then more ++ [site] else site :: more

/-- The sites after any number of rounds of a step, at most as many as given. -/
def loopEnds (step : Site → List Site) (greedy : Bool) : Nat → Site → List Site
  | 0, site => [site]
  | rounds + 1, site =>
    loopOrder greedy ((step site).flatMap (loopEnds step greedy rounds)) site

/-- The sites where a match can end, in order of preference. -/
def ends : Regex → Site → List Site
  | empty, site => [site]
  | set chars, ⟨_, c :: rest⟩ => if chars.test c then [⟨some c, rest⟩] else []
  | set _, ⟨_, []⟩ => []
  | anchor condition, site => if condition.holds site then [site] else []
  | seq first second, site => (first.ends site).flatMap second.ends
  | alt left right, site => left.ends site ++ right.ends site
  | star greedy inner, site => loopEnds inner.ends greedy site.rest.length site
  | plus greedy inner, site =>
    (inner.ends site).flatMap fun stop => loopEnds inner.ends greedy stop.rest.length stop

/-! ## Rounds -/

variable {step : Site → List Site} {greedy : Bool} {site stop : Site}

/-- A site after some rounds is the site before them or comes after a first round. -/
theorem mem_loopEnds_succ {rounds : Nat} :
    stop ∈ loopEnds step greedy (rounds + 1) site ↔
      stop = site ∨ ∃ next ∈ step site, stop ∈ loopEnds step greedy rounds next := by
  cases greedy
  · simp [loopEnds, loopOrder, mem_flatMap]
  · simp [loopEnds, loopOrder, mem_flatMap, or_comm]

/-- Rounds that never give characters back do not do so together. -/
theorem length_le_of_mem_loopEnds
    (shrinks : ∀ site, ∀ stop ∈ step site, stop.rest.length ≤ site.rest.length) (rounds : Nat)
    (reached : stop ∈ loopEnds step greedy rounds site) : stop.rest.length ≤ site.rest.length := by
  induction rounds generalizing site with
  | zero =>
    obtain rfl := mem_singleton.mp reached
    exact Nat.le_refl _
  | succ rounds ih =>
    rcases mem_loopEnds_succ.mp reached with rfl | ⟨next, taken, later⟩
    · exact Nat.le_refl _
    · exact Nat.le_trans (ih later) (shrinks site next taken)

/-- If every round takes a character, the number of rounds does not matter once there are as many as
characters. -/
theorem loopEnds_congr (shrinks : ∀ site, ∀ stop ∈ step site, stop.rest.length < site.rest.length)
    {rounds others : Nat} (enough : site.rest.length ≤ rounds)
    (enough' : site.rest.length ≤ others) :
    loopEnds step greedy rounds site = loopEnds step greedy others site := by
  have idle : ∀ site : Site, site.rest.length = 0 → step site = [] := by
    intro site noneLeft
    cases found : step site with
    | nil => rfl
    | cons stop stops =>
      have shorter := shrinks site stop (by rw [found]; exact mem_cons_self)
      omega
  induction rounds generalizing others site with
  | zero =>
    cases others with
    | zero => rfl
    | succ others => simp [loopEnds, loopOrder, idle site (by omega)]
  | succ rounds ih =>
    cases others with
    | zero => simp [loopEnds, loopOrder, idle site (by omega)]
    | succ others =>
      have later : (step site).flatMap (loopEnds step greedy rounds) =
          (step site).flatMap (loopEnds step greedy others) := by
        unfold List.flatMap
        congr 1
        apply map_congr_left
        intro stop taken
        have shorter := shrinks site stop taken
        exact ih (by omega) (by omega)
      simp only [loopEnds, later]

/-- One round more or none, when every round takes a character. -/
theorem loopEnds_length
    (shrinks : ∀ site, ∀ stop ∈ step site, stop.rest.length < site.rest.length) (site : Site) :
    loopEnds step greedy site.rest.length site =
      loopOrder greedy
        ((step site).flatMap fun stop => loopEnds step greedy stop.rest.length stop) site := by
  rw [loopEnds_congr shrinks (Nat.le_refl _) (Nat.le_succ site.rest.length), loopEnds]
  congr 1
  unfold List.flatMap
  congr 1
  apply map_congr_left
  intro stop taken
  have shorter := shrinks site stop taken
  exact loopEnds_congr shrinks (by omega) (Nat.le_refl _)

/-! ## Taking characters -/

theorem length_lt_of_mem_set {chars : CharClass} (reached : stop ∈ (set chars).ends site) :
    stop.rest.length < site.rest.length := by
  obtain ⟨before, rest⟩ := site
  cases rest with
  | nil => simp [ends] at reached
  | cons c rest =>
    simp only [ends] at reached
    split at reached
    · rw [mem_singleton.mp reached]
      simp
    · simp at reached

/-- A match does not give characters back. -/
theorem length_le_of_mem_ends (regex : Regex) (reached : stop ∈ regex.ends site) :
    stop.rest.length ≤ site.rest.length := by
  induction regex generalizing site stop with
  | empty =>
    obtain rfl := mem_singleton.mp reached
    exact Nat.le_refl _
  | set chars => exact Nat.le_of_lt (length_lt_of_mem_set reached)
  | anchor condition =>
    simp only [ends] at reached
    split at reached
    · obtain rfl := mem_singleton.mp reached
      exact Nat.le_refl _
    · simp at reached
  | seq first second ihFirst ihSecond =>
    obtain ⟨middle, taken, later⟩ := mem_flatMap.mp reached
    exact Nat.le_trans (ihSecond later) (ihFirst taken)
  | alt left right ihLeft ihRight =>
    rcases mem_append.mp reached with taken | taken
    · exact ihLeft taken
    · exact ihRight taken
  | star greedy inner ih => exact length_le_of_mem_loopEnds (fun _ _ taken => ih taken) _ reached
  | plus greedy inner ih =>
    obtain ⟨middle, taken, later⟩ := mem_flatMap.mp reached
    exact Nat.le_trans (length_le_of_mem_loopEnds (fun _ _ taken => ih taken) _ later) (ih taken)

/-- A match of an expression that consumes leaves less than there was. -/
theorem length_lt_of_mem_ends {regex : Regex} (consuming : regex.consumes)
    (reached : stop ∈ regex.ends site) : stop.rest.length < site.rest.length := by
  induction regex generalizing site stop with
  | empty | anchor _ | star _ _ => simp [consumes] at consuming
  | set chars => exact length_lt_of_mem_set reached
  | seq first second ihFirst ihSecond =>
    obtain ⟨middle, taken, later⟩ := mem_flatMap.mp reached
    have before := length_le_of_mem_ends first taken
    have behind := length_le_of_mem_ends second later
    simp only [consumes, Bool.or_eq_true] at consuming
    rcases consuming with consuming | consuming
    · have strict := ihFirst consuming taken
      omega
    · have strict := ihSecond consuming later
      omega
  | alt left right ihLeft ihRight =>
    simp only [consumes, Bool.and_eq_true] at consuming
    rcases mem_append.mp reached with taken | taken
    · exact ihLeft consuming.1 taken
    · exact ihRight consuming.2 taken
  | plus greedy inner ih =>
    obtain ⟨middle, taken, later⟩ := mem_flatMap.mp reached
    have behind := length_le_of_mem_loopEnds
      (fun site stop taken => length_le_of_mem_ends inner taken) _ later
    have strict := ih consuming taken
    omega

end Reflow.Regex
