/-
Fields of the packed form: numbers, texts, options and counted lists.

A number is written in groups of seven bits, the lowest first, with the top
bit set in every byte but the last.  Readers take the bytes that are left and
give back those that they did not use; the first failure from the left wins.
A reader accepts longer spellings of a number than the writer uses, as long as
they fit the width of the field.
-/

namespace GrammarRecords
namespace Packed

abbrev Bytes := List UInt8

inductive Fault where
  | endOfBuffer
  | badNumber
  | badText
  | badOption
  | badTag
deriving DecidableEq, Repr

def Fault.message : Fault → String
  | .endOfBuffer => "Hit the end of buffer, expected more data"
  | .badNumber =>
      "Found a varint that didn't terminate. Is the usize too big for this platform?"
  | .badText => "Tried to parse invalid utf-8"
  | .badOption => "Found an Option discriminant that wasn't 0 or 1"
  | .badTag => "Serde Deserialization Error"

def number (n : Nat) : Bytes :=
  if n < 128 then [UInt8.ofNat n]
  else UInt8.ofNat (n % 128 + 128) :: number (n / 128)
termination_by n

/-- At most `width` bytes, of which the last may hold `top` when all are used. -/
def readNumber : (width top : Nat) → Bytes → Except Fault (Nat × Bytes)
  | 0, _, _ => .error .badNumber
  | _ + 1, _, [] => .error .endOfBuffer
  | width + 1, top, b :: rest =>
      if b.toNat < 128 then
        if width = 0 ∧ top < b.toNat then .error .badNumber else .ok (b.toNat, rest)
      else do
        let (n, rest) ← readNumber width top rest
        return (b.toNat - 128 + 128 * n, rest)

/-- Lengths and counts have 64 bits. -/
def readCount : Bytes → Except Fault (Nat × Bytes) := readNumber 10 1

/-- Tags have 32 bits. -/
def readTag : Bytes → Except Fault (Nat × Bytes) := readNumber 5 15

def textBytes (s : String) : Bytes := s.toUTF8.data.toList

def textOfBytes? (bs : Bytes) : Option String := String.fromUTF8? ⟨bs.toArray⟩

def text (s : String) : Bytes :=
  number (textBytes s).length ++ textBytes s

def readText (bs : Bytes) : Except Fault (String × Bytes) := do
  let (n, rest) ← readCount bs
  if rest.length < n then throw .endOfBuffer
  match textOfBytes? (rest.take n) with
  | some s => return (s, rest.drop n)
  | none => throw .badText

def option {α : Type} (write : α → Bytes) : Option α → Bytes
  | none => [0]
  | some a => 1 :: write a

def readOption {α : Type} (read : Bytes → Except Fault (α × Bytes)) :
    Bytes → Except Fault (Option α × Bytes)
  | [] => .error .endOfBuffer
  | b :: rest =>
      if b = 0 then .ok (none, rest)
      else if b = 1 then do
        let (a, rest) ← read rest
        return (some a, rest)
      else .error .badOption

def items {α : Type} (write : α → Bytes) : List α → Bytes
  | [] => []
  | a :: as => write a ++ items write as

def list {α : Type} (write : α → Bytes) (as : List α) : Bytes :=
  number as.length ++ items write as

def readItems {α : Type} (read : Bytes → Except Fault (α × Bytes)) :
    Nat → Bytes → Except Fault (List α × Bytes)
  | 0, bs => .ok ([], bs)
  | n + 1, bs => do
      let (a, rest) ← read bs
      let (as, rest) ← readItems read n rest
      return (a :: as, rest)

def readList {α : Type} (read : Bytes → Except Fault (α × Bytes)) (bs : Bytes) :
    Except Fault (List α × Bytes) := do
  let (n, rest) ← readCount bs
  readItems read n rest

end Packed
end GrammarRecords
