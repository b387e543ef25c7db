import Reflow.Regex.Basic
import Reflow.Regex.Ranges

/-!
# Terms

A term is a regular expression as a pattern writes it, with counted repetitions and numbered groups.
Terms are built by functions that keep them simple: a sequence inside a sequence is spliced in,
repeating what takes no character more than once is repeating it once, a choice between single
characters is a class, and what all sides of a choice start with is taken out of it. `Term.regex`
spells out the counted repetitions.
-/

namespace Reflow

/-- A regular expression as a pattern writes it. -/
inductive Term where
  | empty
  | chars (members : CharClass)
  | anchor (condition : Anchor)
  | group (index : Nat) (inner : Term)
  | rounds (least : Nat) (most : Option Nat) (greedy : Bool) (inner : Term)
  | seq (first second : Term)
  | alt (left right : Term)
  deriving DecidableEq, Repr

namespace Term

/-- Whether two terms are the same up to the spelling of their classes. -/
def same : Term → Term → Bool
  | empty, empty => true
  | chars left, chars right => left.same right
  | anchor left, anchor right => left == right
  | group i left, group j right => i == j && left.same right
  | rounds least most greedy left, rounds least' most' greedy' right =>
    least == least' && most == most' && greedy == greedy' && left.same right
  | seq first second, seq first' second' => first.same first' && second.same second'
  | alt left right, alt left' right' => left.same left' && right.same right'
  | _, _ => false

/-- Whether a term takes no character in any match. -/
def isIdle : Term → Bool
  | empty | anchor _ => true
  | chars _ => false
  | group _ inner => inner.isIdle
  | rounds _ most _ inner => most.isSome && inner.isIdle
  | seq first second => first.isIdle && second.isIdle
  | alt left right => left.isIdle && right.isIdle

/-- Whether a term takes at least one character in every match. -/
def consumes : Term → Bool
  | empty | anchor _ => false
  | chars _ => true
  | group _ inner => inner.consumes
  | rounds least _ _ inner => least != 0 && inner.consumes
  | seq first second => first.consumes || second.consumes
  | alt left right => left.consumes && right.consumes

/-! ## Sequences -/

def factors : Term → List Term
  | empty => []
  | seq first second => first.factors ++ second.factors
  | term => [term]

def ofFactors : List Term → Term
  | [] => empty
  | [term] => term
  | term :: rest => seq term (ofFactors rest)

def concat (terms : List Term) : Term := ofFactors (terms.flatMap factors)

def isChar : Term → Bool
  | chars members => members.single?.isSome
  | _ => false

/-- Puts a part before groups of parts; neighbouring characters form one group. -/
def consFactor (term : Term) : List (List Term) → List (List Term)
  | [] => [[term]]
  | run :: rest =>
    if term.isChar && run.all isChar then (term :: run) :: rest else [term] :: run :: rest

/-- The parts of a sequence, with characters in a row taken together. -/
def pieces (term : Term) : List (List Term) := term.factors.foldr consFactor []

/-! ## Choices -/

def branches : Term → List Term
  | alt left right => left.branches ++ right.branches
  | term => [term]

def ofBranches : List Term → Term
  | [] => chars .none
  | [term] => term
  | term :: rest => alt term (ofBranches rest)

/-- The members of a class, unless it is a single character. -/
def class? : Term → Option CharClass
  | chars members => if members.single?.isSome then none else some members
  | _ => none

/-- The members of a class of exactly one character. -/
def char? : Term → Option CharClass
  | chars members => if members.single?.isSome then some members else none
  | _ => none

def sameAll : List Term → List Term → Bool
  | [], [] => true
  | left :: lefts, right :: rights => left.same right && sameAll lefts rights
  | _, _ => false

/-- What two lists of pieces have in common at their front. -/
def commonFront : List (List Term) → List (List Term) → List (List Term)
  | left :: lefts, right :: rights =>
    if sameAll left right then left :: commonFront lefts rights else []
  | _, _ => []

/-- The pieces that all sides of a choice start with. Only sides of several pieces can share any. -/
def sharedFront : List (List (List Term)) → List (List Term)
  | [] => []
  | first :: rest =>
    if (first :: rest).all (fun side => 2 ≤ side.length) then rest.foldl commonFront first else []

/-- Terms to choose from that share nothing more, the first one preferred. -/
def choiceOf (sides : List Term) : Term :=
  match sides.mapM char? with
  | some members => chars (.unions members)
  | none =>
    match sides.mapM class? with
    | some members => chars (.unions members)
    | none => ofBranches sides

/-- Terms to choose from, the first one preferred. The number bounds how often something is taken
out of the choice. -/
def choiceWithin : Nat → List Term → Term
  | 0, sides => ofBranches sides
  | size + 1, sides =>
    let sides := sides.flatMap branches
    let parts := sides.map pieces
    let shared := sharedFront parts
    if sides.length < 2 || shared.isEmpty then choiceOf sides
    else
      let rests := parts.map fun side => ofFactors (side.drop shared.length).flatten
      concat (shared.flatten ++ [choiceWithin size rests])

def choice (sides : List Term) : Term :=
  choiceWithin (sides.foldl (fun size side => size + side.factors.length) 1) sides

/-! ## Repetitions -/

/-- Between two numbers of rounds, the second one possibly unlimited. What takes no character needs
no second round. -/
def repeated (least : Nat) (most : Option Nat) (greedy : Bool) (inner : Term) : Term :=
  let (least, most) :=
    if inner.isIdle then (min least 1, some (min (most.getD 1) 1)) else (least, most)
  if most = some 0 then empty
  else if least = 1 && most = some 1 then inner
  else rounds least most greedy inner

/-- The expression that a term stands for. A loop whose body may take no character is tried once
before it is left, so that leaving it is not preferred to a body that takes something. -/
def regex : Term → Regex
  | empty => .empty
  | chars members => .set members
  | anchor condition => .anchor condition
  | group _ inner => inner.regex
  | rounds least most greedy inner =>
    let body := inner.regex
    match least, most with
    | 0, none =>
      if inner.consumes then .star greedy body else .optional greedy (.plus greedy body)
    | 1, none => .plus greedy body
    | least + 2, none => .seq (.times body (least + 1)) (.plus greedy body)
    | 0, some most => .upTo greedy body most
    | least + 1, some most =>
      .seq (.times body (least + 1)) (.upTo greedy body (most - (least + 1)))
  | seq first second => .seq first.regex second.regex
  | alt left right => .alt left.regex right.regex

end Term

end Reflow
