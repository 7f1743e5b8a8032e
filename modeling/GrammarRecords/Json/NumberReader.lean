/-
Numbers of a JSON text.

The digits of a number are gathered into a significand as long as it stays
below `2 ^ 64`.  Further digits before the point scale it, further digits
behind the point are dropped.  Integers that fit stay integers; all else is
`significand * 10 ^ exponent` in binary64.
-/
import GrammarRecords.Json.Cursor
import GrammarRecords.Json.Value

namespace GrammarRecords
namespace Json

def readDigits (c : Cursor) : List Nat × Cursor :=
  ((c.rest.takeWhile Char.isDigit).map fun d => d.toNat - '0'.toNat, c.skipWhile Char.isDigit)

/-- Appends digits while the result stays below the bound; gives back those left over. -/
def gatherDigits (bound : Nat) : Nat → List Nat → Nat × List Nat
  | n, [] => (n, [])
  | n, d :: ds => if n * 10 + d < bound then gatherDigits bound (n * 10 + d) ds else (n, d :: ds)

def significandBound : Nat := Nat.pow 2 64

def exponentBound : Nat := Nat.pow 2 31

def readWhole (c : Cursor) : Except Error (List Nat × Cursor) :=
  match c.rest with
  | [] => c.here .unfinishedValue
  | d :: _ =>
      if d = '0' then
        match c.advance.rest with
        | e :: _ => if e.isDigit then c.advance.atNext .invalidNumber else .ok ([0], c.advance)
        | [] => .ok ([0], c.advance)
      else if d.isDigit then .ok (readDigits c)
      else c.atNext .invalidNumber

def readFraction (c : Cursor) : Except Error (Option (List Nat) × Cursor) :=
  match c.rest with
  | '.' :: _ =>
      match readDigits c.advance with
      | ([], c) => if c.rest.isEmpty then c.atNext .unfinishedValue else c.atNext .invalidNumber
      | (ds, c) => .ok (some ds, c)
  | _ => .ok (none, c)

/-- Where the digits of an exponent start, and whether a minus stands before them. -/
def readSign (c : Cursor) : Bool × Cursor :=
  match c.rest with
  | '-' :: _ => (true, c.advance)
  | '+' :: _ => (false, c.advance)
  | _ => (false, c)

/-- The value of `significand * 10 ^ exponent`, at the cursor behind the number. -/
def scaled (sign : Bool) (significand : Nat) (exponent : Int) (c : Cursor) :
    Except Error (Number × Cursor) :=
  match Decimal.Binary64.ofScientific significand exponent with
  | some x => .ok (.float sign x, c)
  | none => c.here .numberOutOfRange

/-- Reads behind `e`; `exponent` is what the digits so far contribute. -/
def readExponent (sign : Bool) (significand : Nat) (exponent : Int) (c : Cursor) :
    Except Error (Number × Cursor) :=
  let (negative, c) := readSign c
  match readDigits c with
  | ([], _) => if c.rest.isEmpty then c.here .unfinishedValue else c.atNext .invalidNumber
  | (ds, behind) =>
      match gatherDigits exponentBound 0 ds with
      | (e, []) =>
          scaled sign significand (if negative then exponent - (e : Int) else exponent + (e : Int))
            behind
      | (_, left) =>
          if significand ≠ 0 ∧ !negative then
            .error ⟨.numberOutOfRange, c.ahead (ds.length - left.length + 1)⟩
          else .ok (.float sign .zero, behind)

/-- An integer that fits; negative zero and what is below `-2 ^ 63` are not integers. -/
def integer (sign : Bool) (n : Nat) (c : Cursor) : Except Error (Number × Cursor) :=
  if !sign then .ok (.natural n, c)
  else if n = 0 ∨ Nat.pow 2 63 < n then scaled true n 0 c
  else .ok (.negative n, c)

/-- Reads behind the minus, if `sign` tells that there was one. -/
def readNumber (sign : Bool) (c : Cursor) : Except Error (Number × Cursor) := do
  let (whole, c) ← readWhole c
  let (significand, excess) := gatherDigits significandBound 0 whole
  let (fraction?, c) ← readFraction c
  let fraction := fraction?.getD []
  let (significand, dropped) := gatherDigits significandBound significand fraction
  let exponent : Int := (excess.length : Int) - (fraction.length - dropped.length : Nat)
  match c.rest with
  | 'e' :: _ | 'E' :: _ => readExponent sign significand exponent c.advance
  | _ =>
      if fraction?.isSome ∨ excess ≠ [] then scaled sign significand exponent c
      else integer sign significand c

def skipWhole (c : Cursor) : Except Error Cursor :=
  match c.rest with
  | [] => c.here .invalidNumber
  | d :: _ =>
      if d = '0' then
        match c.advance.rest with
        | e :: _ => if e.isDigit then c.advance.atNext .invalidNumber else .ok c.advance
        | [] => .ok c.advance
      else if d.isDigit then .ok (c.skipWhile Char.isDigit)
      else c.atNext .invalidNumber

/-- Moves over digits, of which there has to be one. -/
def skipDigits (c : Cursor) : Except Error Cursor :=
  match c.rest with
  | d :: _ => if d.isDigit then .ok (c.skipWhile Char.isDigit) else c.atNext .invalidNumber
  | [] => c.here .invalidNumber

def skipFraction (c : Cursor) : Except Error Cursor :=
  match c.rest with
  | '.' :: _ => skipDigits c.advance
  | _ => .ok c

def skipExponent (c : Cursor) : Except Error Cursor :=
  match c.rest with
  | 'e' :: _ | 'E' :: _ => skipDigits (readSign c.advance).2
  | _ => .ok c

/-- Moves over a number without a look at its value. -/
def skipNumber (c : Cursor) : Except Error Cursor := do
  skipExponent (← skipFraction (← skipWhole c))

end Json
end GrammarRecords
