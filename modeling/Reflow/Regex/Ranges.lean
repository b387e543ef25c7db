import Reflow.Regex.CharClass

/-!
# Classes as ranges

Every class is a list of ranges in increasing order that neither overlap nor touch, and two classes
have the same members exactly if their lists are equal. Ranges are given by rank: the characters are
counted without the surrogates, so that the ranks are the numbers below `charCount`.
-/

namespace Reflow.CharClass

open Text

def charCount : Nat := 0x10f800

/-- The place of a character's code point in the order of all characters. -/
def rank (code : Nat) : Nat := if code < 0xe000 then code else code - 0x800

def codeOfRank (rank : Nat) : Nat := if rank < 0xd800 then rank else rank + 0x800

/-- Adds a range to ranges in increasing order and joins it with those that it overlaps or
touches. -/
def insertRange (first last : Nat) : List (Nat × Nat) → List (Nat × Nat)
  | [] => [(first, last)]
  | (lo, hi) :: rest =>
    if last + 1 < lo then (first, last) :: (lo, hi) :: rest
    else if hi + 1 < first then (lo, hi) :: insertRange first last rest
    else insertRange (min first lo) (max last hi) rest

/-- The members of either of two lists of ranges in increasing order. -/
def join (left right : List (Nat × Nat)) : List (Nat × Nat) :=
  right.foldl (fun ranges range => insertRange range.1 range.2 ranges) left

/-- What lies between ranges in increasing order, from a rank on. -/
def gapsFrom (start : Nat) : List (Nat × Nat) → List (Nat × Nat)
  | [] => if start < charCount then [(start, charCount - 1)] else []
  | (lo, hi) :: rest =>
    if start < lo then (start, lo - 1) :: gapsFrom (hi + 1) rest else gapsFrom (hi + 1) rest

/-- The ranges of a table of code points, with the ASCII ranges in front. -/
def tableRanges (ascii : List (Nat × Nat)) (table : CharSet) : List (Nat × Nat) :=
  ascii ++ table.toList.map fun range => (rank range.1, rank range.2)

def wordTable : List (Nat × Nat) :=
  tableRanges [(0x30, 0x39), (0x41, 0x5a), (0x5f, 0x5f), (0x61, 0x7a)] wordRanges

def digitTable : List (Nat × Nat) := tableRanges [(0x30, 0x39)] digitRanges

def blankTable : List (Nat × Nat) :=
  [(0x09, 0x0d), (0x20, 0x20), (0x85, 0x85), (0xa0, 0xa0), (0x1680, 0x1680), (0x2000, 0x200a),
    (0x2028, 0x2029), (0x202f, 0x202f), (0x205f, 0x205f), (0x3000, 0x3000)]

def ranges : CharClass → List (Nat × Nat)
  | none => []
  | any => [(0, charCount - 1)]
  | range first last =>
    if first.toNat ≤ last.toNat then [(rank first.toNat, rank last.toNat)] else []
  | word => wordTable
  | blank => blankTable
  | digit => digitTable
  | complement set => gapsFrom 0 set.ranges
  | union left right => join left.ranges right.ranges

def single? : CharClass → Option Char
  | range first last => if first = last then some first else Option.none
  | none | any | word | blank | digit => Option.none
  | set =>
    match set.ranges with
    | [(first, last)] => if first = last then some (Char.ofNat (codeOfRank first)) else Option.none
    | _ => Option.none

def same (left right : CharClass) : Bool := left == right || left.ranges == right.ranges

end Reflow.CharClass
