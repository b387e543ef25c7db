import Reflow.Regex.Term

/-!
# Storage of a compiled pattern

A pattern is refused if the tables it compiles to grow too large. The tables work on the bytes of
UTF-8 and can read a text from its end. They have a state for each byte, fork and condition, and a
class of characters takes a state for each start that its byte sequences have in common.
-/

namespace Reflow

/-- Storage allowed for one pattern. -/
def storageLimit : Nat := 10485760

def stateStorage : Nat := 32

def branchStorage : Nat := 4

def byteRangeStorage : Nat := 8

/-! ## Classes -/

/-- The digits to base 64 of the numbers in a range, as ranges for each place. Numbers that differ
in some place only within full ranges behind it are taken together. -/
def placeRanges : Nat → Nat → Nat → List (List (Nat × Nat))
  | 0, _, _ => [[]]
  | places + 1, lo, hi =>
    let unit := Nat.pow 64 places
    let first := lo / unit
    let last := hi / unit
    if first = last then
      (placeRanges places (lo % unit) (hi % unit)).map ((first, first) :: ·)
    else
      let front :=
        if lo % unit = 0 then []
        else (placeRanges places (lo % unit) (unit - 1)).map ((first, first) :: ·)
      let back :=
        if hi % unit = unit - 1 then []
        else (placeRanges places 0 (hi % unit)).map ((last, last) :: ·)
      let lower := if front.isEmpty then first else first + 1
      let upper := if back.isEmpty then last + 1 else last
      let middle :=
        if lower < upper then [(lower, upper - 1) :: List.replicate places (0, 63)] else []
      front ++ middle ++ back

/-- The code points with the same number of bytes: the first one, the last one and the number of
bytes. Surrogates are left out. -/
def byteZones : List (Nat × Nat × Nat) :=
  [(0, 0x7f, 1), (0x80, 0x7ff, 2), (0x800, 0xd7ff, 3), (0xe000, 0xffff, 3), (0x10000, 0x10ffff, 4)]

/-- The byte sequences of some ranges of code points that lie in a zone. -/
def zoneSequences (ranges : List (Nat × Nat)) (zone : Nat × Nat × Nat) :
    List (List (Nat × Nat)) :=
  let (first, last, bytes) := zone
  ranges.flatMap fun (lo, hi) =>
    let lo := max lo first
    let hi := min hi last
    if lo ≤ hi then
      if bytes = 1 then [[(lo, hi)]] else placeRanges bytes lo hi
    else []

def commonLength : List (Nat × Nat) → List (Nat × Nat) → Nat
  | left :: lefts, right :: rights => if left = right then commonLength lefts rights + 1 else 0
  | _, _ => 0

/-- Number of different starts of some byte sequences in order. -/
def countStarts : List (List (Nat × Nat)) → List (Nat × Nat) → Nat
  | [], _ => 0
  | sequence :: rest, previous =>
    sequence.length - commonLength previous sequence + countStarts rest sequence

def rangesStorage (ranges : List (Nat × Nat)) : Nat :=
  if ranges.all (fun range => range.2 < 0x80) then
    2 * stateStorage + byteRangeStorage * ranges.length
  else
    let zones := byteZones.map (zoneSequences ranges)
    let states := zones.foldl (fun count sequences => count + countStarts sequences []) 0
    let branches := zones.foldl (fun count sequences => count + sequences.length) 0
    stateStorage * (states + 2) + branchStorage * branches

def CharClass.codeRanges (set : CharClass) : List (Nat × Nat) :=
  set.ranges.map fun range => (CharClass.codeOfRank range.1, CharClass.codeOfRank range.2)

def wordStorage : Nat := rangesStorage CharClass.word.codeRanges

/-- Storage of a class. A single character is stored byte by byte. -/
def CharClass.storage (set : CharClass) : Nat :=
  match set with
  | .word => wordStorage
  | _ =>
    match set.single? with
    | some c => stateStorage * c.utf8Size
    | Option.none => rangesStorage set.codeRanges

/-! ## Terms -/

/-- Storage of a fork of two ways. -/
def forkStorage : Nat := stateStorage + 2 * branchStorage

namespace Term

/-- Storage of a number of rounds, at least one state. -/
def timesStorage (rounds inner : Nat) : Nat :=
  if rounds = 0 then stateStorage else rounds * inner

/-- Storage of a term. A side of a choice also takes a way out of its fork, and the choice itself
two states, however many sides it has. -/
def storage (side : Bool) : Term → Nat
  | empty | anchor _ => stateStorage + branch side
  | chars members => members.storage + branch side
  | group _ inner => inner.storage false + 2 * stateStorage + branch side
  | rounds least most _ inner =>
    let body := inner.storage false
    branch side +
      match least, most with
      | 0, none =>
        if inner.consumes then body + forkStorage else body + 2 * forkStorage + stateStorage
      | 0, some 1 => body + forkStorage + stateStorage
      | least, none => least * body + forkStorage
      | least, some most =>
        if least = most then timesStorage least body
        else timesStorage least body + stateStorage + (most - least) * (body + forkStorage)
  | seq first second => first.storage false + second.storage false + branch side
  | alt left right =>
    left.storage true + right.storage true + if side then 0 else 2 * stateStorage
where
  /-- Storage of a way out of a fork, for a side of a choice. -/
  branch (side : Bool) : Nat := if side then branchStorage else 0

def totalStorage (term : Term) : Nat := term.storage false + 4 * stateStorage

end Term

end Reflow
