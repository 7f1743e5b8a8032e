/-
Strings of a JSON text.

Both readers start behind the opening quote and end behind the closing one.
The strict one gives the text; the other only looks for the end, so it lets
surrogates stand alone.  Each step uses up a character, so the characters that
are left at the start count the steps, and none are left when the count ends.
-/
import GrammarRecords.Json.Cursor
import GrammarRecords.Text.Digits

namespace GrammarRecords
namespace Json

/-- The bytes of a text, as far as four of them. -/
def hasFourBytes (cs : List Char) : Bool :=
  4 ≤ (cs.take 4).foldr (fun c bytes => c.utf8Size + bytes) 0

def readHex4 (c : Cursor) : Except Error (Nat × Cursor) :=
  if hasFourBytes c.rest then
    match c.rest with
    | h₁ :: h₂ :: h₃ :: h₄ :: _ =>
        match Text.hexValue? h₁, Text.hexValue? h₂, Text.hexValue? h₃, Text.hexValue? h₄ with
        | some a, some b, some d, some e =>
            .ok (((a * 16 + b) * 16 + d) * 16 + e, c.advance.advance.advance.advance)
        | _, _, _, _ => .error ⟨.invalidEscape, c.ahead 4⟩
    | _ => .error ⟨.invalidEscape, c.ahead 4⟩
  else .error ⟨.unfinishedString, c.ahead 4⟩

def isLeadingSurrogate (n : Nat) : Bool :=
  decide (0xd800 ≤ n) && decide (n ≤ 0xdbff)

def isTrailingSurrogate (n : Nat) : Bool :=
  decide (0xdc00 ≤ n) && decide (n ≤ 0xdfff)

/-- Moves over a character that has to follow a leading surrogate. -/
def expectInPair (expected : Char) (c : Cursor) : Except Error Cursor :=
  match c.rest with
  | [] => c.here .unfinishedString
  | d :: _ => if d = expected then .ok c.advance else c.atNext .unfinishedSurrogate

/-- The character behind `\u`, for which two escapes may be needed. -/
def readCodePoint (c : Cursor) : Except Error (Char × Cursor) := do
  let (n, c) ← readHex4 c
  if isTrailingSurrogate n then
    c.here .loneSurrogate
  else if isLeadingSurrogate n then
    let c ← expectInPair '\\' c
    let c ← expectInPair 'u' c
    let (m, c) ← readHex4 c
    if isTrailingSurrogate m then
      return (Char.ofNat (0x10000 + (n - 0xd800) * 0x400 + (m - 0xdc00)), c)
    else c.here .loneSurrogate
  else return (Char.ofNat n, c)

def shortEscape? (c : Char) : Option Char :=
  if c = '"' ∨ c = '\\' ∨ c = '/' then some c
  else if c = 'b' then some (Char.ofNat 0x08)
  else if c = 'f' then some (Char.ofNat 0x0c)
  else if c = 'n' then some '\n'
  else if c = 'r' then some '\r'
  else if c = 't' then some '\t'
  else none

/-- The character that an escape stands for, read behind the backslash. -/
def readEscape (c : Cursor) : Except Error (Char × Cursor) :=
  match c.rest with
  | [] => c.here .unfinishedString
  | d :: _ =>
      if d = 'u' then readCodePoint c.advance
      else
        match shortEscape? d with
        | some e => .ok (e, c.advance)
        | none => c.atNext .invalidEscape

def isControl (c : Char) : Bool := decide (c.toNat < 0x20)

def readChars : (steps : List Char) → Cursor → Except Error (List Char × Cursor)
  | [], c => c.here .unfinishedString
  | _ :: steps, c =>
      match c.rest with
      | [] => c.here .unfinishedString
      | d :: _ =>
          if d = '"' then .ok ([], c.advance)
          else if d = '\\' then do
            let (e, c) ← readEscape c.advance
            let (es, c) ← readChars steps c
            return (e :: es, c)
          else if isControl d then c.atNext .controlCharacter
          else do
            let (es, c) ← readChars steps c.advance
            return (d :: es, c)

def readString (c : Cursor) : Except Error (String × Cursor) := do
  let (cs, c) ← readChars c.rest c
  return (String.ofList cs, c)

def skipEscape (c : Cursor) : Except Error Cursor :=
  match c.rest with
  | [] => c.here .unfinishedString
  | d :: _ =>
      if d = 'u' then do
        let (_, c) ← readHex4 c.advance
        return c
      else if (shortEscape? d).isSome then .ok c.advance
      else c.atNext .invalidEscape

def skipChars : (steps : List Char) → Cursor → Except Error Cursor
  | [], c => c.here .unfinishedString
  | _ :: steps, c =>
      match c.rest with
      | [] => c.here .unfinishedString
      | d :: _ =>
          if d = '"' then .ok c.advance
          else if d = '\\' then do skipChars steps (← skipEscape c.advance)
          else if isControl d then c.here .controlCharacter
          else skipChars steps c.advance

def skipString (c : Cursor) : Except Error Cursor :=
  skipChars c.rest c

end Json
end GrammarRecords
