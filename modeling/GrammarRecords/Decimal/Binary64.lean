/-
Finite non-negative binary64 numbers as exact pairs.

A number is `mantissa * 2 ^ exponent`.  Rounding takes the exact ratio of two
naturals to the nearest such pair, a tie to the even mantissa, so products and
quotients are computed exactly first and rounded once.
-/

namespace GrammarRecords
namespace Decimal

/-- Rounds `num / den` to a natural number, a half to the even one. -/
def roundHalfEven (num den : Nat) : Nat :=
  let q := num / den
  let r := num % den
  if 2 * r < den then q
  else if den < 2 * r then q + 1
  else q + q % 2

structure Binary64 where
  mantissa : Nat
  exponent : Int
deriving DecidableEq, Repr

namespace Binary64

def zero : Binary64 := ⟨0, -1074⟩

def isZero (x : Binary64) : Bool := x.mantissa == 0

/-- The ratio `num / den` measured in units of `2 ^ exponent`, again as a ratio. -/
def inUnits (num den : Nat) (exponent : Int) : Nat × Nat :=
  if 0 ≤ exponent then (num, den * Nat.pow 2 exponent.toNat)
  else (num * Nat.pow 2 (-exponent).toNat, den)

/--
The exponent of the unit in which the ratio has 53 binary digits, or that of
the smallest unit there is.
-/
def unitOf (num den : Nat) : Int :=
  let low : Int := (Nat.log2 num : Int) - Nat.log2 den - 53
  let (n, d) := inUnits num den low
  max (if Nat.pow 2 53 ≤ n / d then low + 1 else low) (-1074)

/-- The nearest number, or nothing beyond the largest one. -/
def ofRatio (num den : Nat) : Option Binary64 :=
  if num = 0 then some zero
  else
    let unit := unitOf num den
    let (n, d) := inUnits num den unit
    let m := roundHalfEven n d
    let x : Binary64 := if m = Nat.pow 2 53 then ⟨Nat.pow 2 52, unit + 1⟩ else ⟨m, unit⟩
    if 971 < x.exponent then none else some x

def toRatio (x : Binary64) : Nat × Nat :=
  if 0 ≤ x.exponent then (x.mantissa * Nat.pow 2 x.exponent.toNat, 1)
  else (x.mantissa, Nat.pow 2 (-x.exponent).toNat)

def mul (x y : Binary64) : Option Binary64 :=
  ofRatio (x.toRatio.1 * y.toRatio.1) (x.toRatio.2 * y.toRatio.2)

def div (x y : Binary64) : Option Binary64 :=
  ofRatio (x.toRatio.1 * y.toRatio.2) (x.toRatio.2 * y.toRatio.1)

def powerOfTen (n : Nat) : Option Binary64 := ofRatio (Nat.pow 10 n) 1

/-- The largest power of ten below the largest number has this exponent. -/
def maxPower : Nat := 308

/-- Multiplies by a power of ten, with one rounding of the power and one of the product. -/
def scaleUp (x : Binary64) (n : Nat) : Option Binary64 :=
  if x.isZero then some zero
  else if n ≤ maxPower then do x.mul (← powerOfTen n)
  else none

/-- Divides by the largest power of ten as often as told, or until nothing is left. -/
def sink : Nat → Binary64 → Option Binary64
  | 0, x => some x
  | k + 1, x =>
      if x.isZero then some zero
      else do sink k (← x.div (← powerOfTen maxPower))

/-- Divides by a power of ten, with a rounding after each largest power. -/
def scaleDown (x : Binary64) (n : Nat) : Option Binary64 := do
  let k := (n - 1) / maxPower
  (← sink k x).div (← powerOfTen (n - k * maxPower))

/-- The number `significand * 10 ^ exponent`, with the roundings of the scaling. -/
def ofScientific (significand : Nat) (exponent : Int) : Option Binary64 := do
  let x ← ofRatio significand 1
  if 0 ≤ exponent then x.scaleUp exponent.toNat else x.scaleDown (-exponent).toNat

end Binary64
end Decimal
end GrammarRecords
