/-
Shortest decimals.

The shortest decimal of a number has the fewest digits among those that round
to it.  On the grid of a given number of digits only the two neighbours of the
number can round to it when any point of the grid does; of two that do, the
nearer is taken, and of two equally near the even one.
-/
import GrammarRecords.Decimal.Binary64

namespace GrammarRecords
namespace Decimal

/-- The decimal `digits * 10 ^ exponent`. -/
structure Scaled where
  digits : Nat
  exponent : Int
deriving DecidableEq, Repr

def Scaled.toBinary64 (s : Scaled) : Option Binary64 :=
  if 0 ≤ s.exponent then Binary64.ofRatio (s.digits * Nat.pow 10 s.exponent.toNat) 1
  else Binary64.ofRatio s.digits (Nat.pow 10 (-s.exponent).toNat)

def digitCount (n : Nat) : Nat := (Nat.toDigits 10 n).length

/-- The place of the first digit of `num / den`, for a positive ratio. -/
def leadingPlace (num den : Nat) : Int :=
  if den ≤ num then (digitCount (num / den) : Int) - 1
  else -(digitCount ((den + num - 1) / num - 1) : Int)

/-- The neighbour on the grid of `count` digits that reads back as `x`. -/
def onGrid? (x : Binary64) (count : Nat) : Option Scaled :=
  let (num, den) := x.toRatio
  let place := leadingPlace num den - (count : Int) + 1
  let (n, d) :=
    if 0 ≤ place then (num, den * Nat.pow 10 place.toNat)
    else (num * Nat.pow 10 (-place).toNat, den)
  let below : Scaled := ⟨n / d, place⟩
  let above : Scaled := ⟨n / d + 1, place⟩
  let nearest : Scaled := ⟨roundHalfEven n d, place⟩
  if below.toBinary64 = some x then
    if above.toBinary64 = some x then some nearest else some below
  else if above.toBinary64 = some x then some above
  else none

def stripZeros : Nat → Scaled → Scaled
  | 0, s => s
  | fuel + 1, s =>
      if s.digits ≠ 0 ∧ s.digits % 10 = 0 then stripZeros fuel ⟨s.digits / 10, s.exponent + 1⟩
      else s

/-- Seventeen digits always suffice. -/
def shortest (x : Binary64) : Scaled :=
  match (List.range 17).findSome? fun k => onGrid? x (k + 1) with
  | some s => stripZeros 17 s
  | none => ⟨0, 0⟩

/-- Which numbers are written without an exponent, by the place of their first digit. -/
def positionalPlaces (place : Int) : Bool :=
  decide (-5 ≤ place) && decide (place < 16)

/-- A positional decimal has at least one digit on each side of the point. -/
def positionalText (digits : List Char) (place : Int) : List Char :=
  if place < 0 then
    '0' :: '.' :: (List.replicate ((-place).toNat - 1) '0' ++ digits)
  else
    let whole := place.toNat + 1
    if digits.length ≤ whole then
      digits ++ List.replicate (whole - digits.length) '0' ++ ['.', '0']
    else digits.take whole ++ '.' :: digits.drop whole

def exponentText (digits : List Char) (place : Int) : List Char :=
  let mantissa :=
    match digits with
    | d :: e :: rest => d :: '.' :: e :: rest
    | ds => ds
  mantissa ++ 'e' :: (if place < 0 then '-' else '+') :: Nat.toDigits 10 place.natAbs

/-- The text of a number, with a sign for a negative one and for a negative zero. -/
def text (negative : Bool) (x : Binary64) : String :=
  let sign := if negative then ['-'] else []
  if x.isZero then String.ofList (sign ++ ['0', '.', '0'])
  else
    let s := shortest x
    let digits := Nat.toDigits 10 s.digits
    let place := s.exponent + digits.length - 1
    String.ofList <| sign ++
      if positionalPlaces place then positionalText digits place else exponentText digits place

end Decimal
end GrammarRecords
