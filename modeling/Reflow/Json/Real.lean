import Reflow.Text.Basic

/-!
# Floating point numbers as decimals

A finite number is written with the fewest digits that read back as the same number, and of those
the nearest. Reading takes at most the digits that fit in 64 bits and scales them by a power of ten.
-/

namespace Reflow.Real

/-- Sign bit of a number. -/
def isNegative (bits : UInt64) : Bool := bits >>> 63 != 0

/-- The number `mantissa * 2 ^ exponent` that some bits denote, apart from the sign. -/
structure Binary where
  mantissa : Nat
  exponent : Int
  /-- Whether the next smaller number is only half as far away as the next larger one. -/
  narrowBelow : Bool
  deriving DecidableEq, Repr

def Binary.ofBits (bits : UInt64) : Binary :=
  let fraction := (bits &&& 0xfffffffffffff).toNat
  let biased := ((bits >>> 52) &&& 0x7ff).toNat
  if biased == 0 then ⟨fraction, -1074, false⟩
  else ⟨fraction + 0x10000000000000, (biased : Int) - 1075, fraction == 0 && 1 < biased⟩

/-- A power with an integer exponent, as a fraction. -/
def power (base : Nat) (exponent : Int) : Nat × Nat :=
  if exponent < 0 then (1, base.pow (-exponent).toNat) else (base.pow exponent.toNat, 1)

/-- The exponent of the leading decimal digit of a positive fraction, found from an upper bound on
its size. -/
def leadingExponent (numerator denominator : Nat) : Nat → Int → Int
  | 0, guess => guess
  | steps + 1, guess =>
    let (up, down) := power 10 guess
    if denominator * up ≤ numerator * down then guess
    else leadingExponent numerator denominator steps (guess - 1)

/-- A decimal number: its digits read as a natural number, times a power of ten. -/
structure Decimal where
  digits : Nat
  exponent : Int
  deriving DecidableEq, Repr

/-- The interval of reals that round to a binary number, four times as large as the number
itself. -/
def Binary.bounds (binary : Binary) : Nat × Nat :=
  (4 * binary.mantissa - (if binary.narrowBelow then 1 else 2), 4 * binary.mantissa + 2)

/-- Whether a decimal number reads back as a binary number. -/
def Decimal.readsAs (decimal : Decimal) (binary : Binary) : Bool :=
  let (up, down) := power 10 decimal.exponent
  let (upTwo, downTwo) := power 2 binary.exponent
  let value := 4 * decimal.digits * up * downTwo
  let (low, high) := binary.bounds
  let low := low * upTwo * down
  let high := high * upTwo * down
  if binary.mantissa % 2 == 0 then low ≤ value && value ≤ high else low < value && value < high

/-- The nearest decimal number with a given last place, if one reads back. -/
def nearest? (binary : Binary) (place : Int) : Option Decimal :=
  let (up, down) := power 10 place
  let (upTwo, downTwo) := power 2 binary.exponent
  let numerator := binary.mantissa * upTwo * down
  let denominator := downTwo * up
  let below := numerator / denominator
  let gap := numerator % denominator
  let lower : Decimal := ⟨below, place⟩
  let upper : Decimal := ⟨below + 1, place⟩
  let lowerFits := 0 < below && lower.readsAs binary
  let upperFits := upper.readsAs binary
  let preferLower := 2 * gap < denominator || (2 * gap == denominator && below % 2 == 0)
  if lowerFits && (preferLower || !upperFits) then some lower
  else if upperFits then some upper
  else none

/-- Tries more and more digits until a decimal number reads back. -/
def shortestFrom (binary : Binary) (leading : Int) : Nat → Nat → Decimal
  | 0, _ => ⟨0, 0⟩
  | steps + 1, digits =>
    match nearest? binary (leading - digits) with
    | some decimal => decimal
    | none => shortestFrom binary leading steps (digits + 1)

/-- The decimal number of fewest digits that reads back, the nearest of those. -/
def shortest (binary : Binary) : Decimal :=
  let (up, down) := power 2 binary.exponent
  let leading := leadingExponent (binary.mantissa * up) down 700 310
  shortestFrom binary leading 18 0

def Decimal.trim (decimal : Decimal) : Nat → Decimal
  | 0 => decimal
  | steps + 1 =>
    if decimal.digits != 0 && decimal.digits % 10 == 0 then
      Decimal.trim ⟨decimal.digits / 10, decimal.exponent + 1⟩ steps
    else decimal

/-- Writes a decimal number. Up to sixteen places before the point and five zeros behind it are
written out; beyond that an exponent with its sign is used. Whole numbers keep one zero behind the
point. -/
def Decimal.write (decimal : Decimal) : Text :=
  let digits := Nat.toDigits 10 decimal.digits
  let zeros (count : Int) := List.replicate count.toNat '0'
  let point : Int := digits.length + decimal.exponent
  if 0 ≤ decimal.exponent && point ≤ 16 then digits ++ zeros decimal.exponent ++ ['.', '0']
  else if 0 < point && point ≤ 16 then
    digits.take point.toNat ++ '.' :: digits.drop point.toNat
  else if -5 < point && point ≤ 0 then ['0', '.'] ++ zeros (-point) ++ digits
  else
    let exponent := point - 1
    let sign := if exponent < 0 then '-' else '+'
    let front := match digits with
      | [digit] => [digit]
      | digit :: rest => digit :: '.' :: rest
      | [] => []
    front ++ 'e' :: sign :: Nat.toDigits 10 exponent.natAbs

def write (bits : UInt64) : Text :=
  let sign := if isNegative bits then ['-'] else []
  let binary := Binary.ofBits bits
  let body :=
    if binary.mantissa == 0 then ['0', '.', '0'] else ((shortest binary).trim 20).write
  sign ++ body

/-- Divides by powers of ten, at most 10^308 at a time; nothing but zero survives too many steps. -/
def scaleDown : Nat → Float → Nat → Float
  | 0, _, _ => 0
  | steps + 1, value, exponent =>
    if exponent ≤ 308 then value / Float.ofScientific 1 false exponent
    else if value == 0 then value
    else scaleDown steps (value / Float.ofScientific 1 false 308) (exponent - 308)

/-- The bits of digits times a power of ten, if that is within range. -/
def ofParts? (negative : Bool) (digits : Nat) (exponent : Int) : Option UInt64 :=
  let value := Float.ofScientific digits false 0
  let scaled :=
    if exponent < 0 then some (scaleDown 4 value (-exponent).toNat)
    else if exponent ≤ 308 then
      let product := value * Float.ofScientific 1 false exponent.toNat
      if product.isInf then none else some product
    else if digits == 0 then some value
    else none
  scaled.map fun value => (if negative then -value else value).toBits

end Reflow.Real
