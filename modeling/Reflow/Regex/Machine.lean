import Reflow.Regex.Basic
import Std.Data.HashSet

/-!
# Machines

A regular expression is matched by a machine whose states read a character, check a condition, fork
or accept. All states that the machine can be in are followed at once, in the order in which their
paths are preferred, and a state that was reached before on a preferred path is not reached again.
So a text is matched in time proportional to its length, and a loop whose body takes nothing is not
entered twice at the same place.

A condition on what follows a place is decided when the next character is there to be read, and the
states are then followed again from those that were reached.
-/

namespace Reflow

inductive Step where
  | accept
  | read (chars : CharClass) (next : Nat)
  | check (condition : Anchor) (next : Nat)
  /-- Goes on in two states, the first one preferred. -/
  | fork (first second : Nat)
  deriving DecidableEq, Repr

namespace Regex

def size : Regex → Nat
  | empty => 0
  | set _ | anchor _ => 1
  | seq first second => first.size + second.size
  | alt left right => left.size + right.size + 1
  | star _ inner | plus _ inner => inner.size + 1

/-- A fork between another round and the end of a loop. -/
def loopFork (greedy : Bool) (again leave : Nat) : Step :=
  if greedy then .fork again leave else .fork leave again

/-- Adds the states of an expression behind those that are there, so that they lead to the state
`next`, and gives the state to start in. -/
def compile : Regex → (next : Nat) → Array Step → Nat × Array Step
  | empty, next, steps => (next, steps)
  | set chars, next, steps => (steps.size, steps.push (.read chars next))
  | anchor condition, next, steps => (steps.size, steps.push (.check condition next))
  | seq first second, next, steps =>
    let (middle, steps) := second.compile next steps
    first.compile middle steps
  | alt left right, next, steps =>
    let (first, steps) := left.compile next steps
    let (second, steps) := right.compile next steps
    (steps.size, steps.push (.fork first second))
  | star greedy inner, next, steps =>
    let place := steps.size + inner.size
    let (start, steps) := inner.compile place steps
    (place, steps.push (loopFork greedy start next))
  | plus greedy inner, next, steps =>
    let place := steps.size + inner.size
    let (start, steps) := inner.compile place steps
    (start, steps.push (loopFork greedy start next))

end Regex

structure Machine where
  steps : Array Step
  start : Nat
  /-- Whether every match starts where the text starts. -/
  anchored : Bool
  deriving DecidableEq, Repr

/-- States reached so far. -/
structure Reached where
  seen : Std.HashSet Nat := {}
  /-- The states to stay in until a character is read, last one first. -/
  states : List Nat := []

/-- A match found in a text: the text falls into what is before it, the match and what is after. -/
structure Regex.Match where
  before : Text
  matched : Text
  after : Text
  deriving DecidableEq, Repr

namespace Machine

/-- The machine of an expression. Its first state accepts. -/
def ofRegex (regex : Regex) : Machine :=
  let (start, steps) := regex.compile 0 #[.accept]
  ⟨steps, start, regex.isAnchored⟩

/-- Reaches a state and all states behind it, given which conditions are known to hold. The number
bounds the length of a path. -/
def reach (machine : Machine) (known : Anchor → Bool) : Nat → Reached → Nat → Reached
  | 0, reached, _ => reached
  | fuel + 1, reached, state =>
    if reached.seen.contains state then reached
    else
      let seen := reached.seen.insert state
      match machine.steps[state]? with
      | none => { reached with seen }
      | some (.fork first second) =>
        machine.reach known fuel (machine.reach known fuel { reached with seen } first) second
      | some (.check condition next) =>
        let reached := ⟨seen, state :: reached.states⟩
        if known condition then machine.reach known fuel reached next else reached
      | some _ => ⟨seen, state :: reached.states⟩

/-- The states to stay in behind some states, in order of preference. -/
def close (machine : Machine) (known : Anchor → Bool) (states : List Nat) : List Nat :=
  (states.foldl (machine.reach known (machine.steps.size + 1)) {}).states.reverse

/-- Whether a condition that holds at a site is decided on arrival. -/
def isPrompt (early : Bool) (condition : Anchor) : Bool := early || condition.looksBehind

/-- The states behind some states on arrival at a site. -/
def arrive (machine : Machine) (early : Bool) (site : Site) (states : List Nat) : List Nat :=
  machine.close (fun condition => condition.holds site && isPrompt early condition) states

/-- Whether a state waits for a condition that turned out to hold. -/
def isDue (machine : Machine) (early : Bool) (site : Site) (state : Nat) : Bool :=
  match machine.steps[state]? with
  | some (.check condition _) => condition.holds site && !isPrompt early condition
  | _ => false

/-- The states at a site when all conditions are decided. -/
def settle (machine : Machine) (early : Bool) (site : Site) (states : List Nat) : List Nat :=
  if states.any (machine.isDue early site) then machine.close (·.holds site) states else states

def accepts (machine : Machine) (state : Nat) : Bool :=
  match machine.steps[state]? with
  | some .accept => true
  | _ => false

def next? (machine : Machine) (c : Char) (state : Nat) : Option Nat :=
  match machine.steps[state]? with
  | some (.read chars next) => if chars.test c then some next else none
  | _ => none

/-- What is left behind the preferred match, given the states at a site and what is left behind the
best match so far. States behind an accepting one are not preferred to it and are dropped. -/
def run (machine : Machine) (early : Bool) (states : List Nat) (best : Option Text)
    (before : Option Char) : Text → Option Text
  | [] =>
    let states := machine.settle early ⟨before, []⟩ states
    if states.any machine.accepts then some [] else best
  | c :: rest =>
    let states := machine.settle early ⟨before, c :: rest⟩ states
    let best := if states.any machine.accepts then some (c :: rest) else best
    let live := states.takeWhile fun state => !machine.accepts state
    match live.filterMap (machine.next? c) with
    | [] => best
    | behind => machine.run early (machine.arrive early ⟨some c, rest⟩ behind) best (some c) rest

def runAt (machine : Machine) (early : Bool) (site : Site) : Option Text :=
  machine.run early (machine.arrive early site [machine.start]) none site.before site.rest

/-- Whether all conditions are decided on arrival. They are if some of them ask for words and the
text is not all ASCII. -/
def decidesEarly (machine : Machine) (text : Text) : Bool :=
  machine.steps.any (fun step =>
    match step with
    | .check condition _ => condition.asksWords
    | _ => false) && text.any fun c => 0x80 ≤ c.toNat

/-- The leftmost match at or after a site, the preferred one of those that start there. -/
def findFrom (machine : Machine) (early : Bool) (skipped : Text) (before : Option Char) :
    Text → Option Regex.Match
  | [] =>
    match machine.runAt early ⟨before, []⟩ with
    | some after => some ⟨skipped.reverse, [], after⟩
    | none => none
  | c :: rest =>
    match machine.runAt early ⟨before, c :: rest⟩ with
    | some after =>
      some ⟨skipped.reverse, (c :: rest).take ((c :: rest).length - after.length), after⟩
    | none =>
      if machine.anchored then none
      else machine.findFrom early (c :: skipped) (some c) rest

def find (machine : Machine) (text : Text) : Option Regex.Match :=
  machine.findFrom (machine.decidesEarly text) [] none text

end Machine

end Reflow
