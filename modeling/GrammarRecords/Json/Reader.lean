/-
JSON values from text.

One loop reads the elements of any array and one the members of any object.
Each is told what to do with an element or member, carries the result along,
and stops before the closing bracket.  A step uses up a character, so one step
more than there are characters left is never needed.
A value is read with a bound on the brackets that may be open inside it.
-/
import GrammarRecords.Json.NumberReader
import GrammarRecords.Json.StringReader

namespace GrammarRecords
namespace Json

/-- Whether there is another element, at the cursor where it or the bracket stands. -/
def nextElement (first : Bool) (c : Cursor) : Except Error (Bool × Cursor) :=
  let c := c.skipBlank
  match c.rest with
  | [] => c.atNext .unfinishedArray
  | ']' :: _ => .ok (false, c)
  | d :: _ =>
      if first then .ok (true, c)
      else if d = ',' then
        let c := c.advance.skipBlank
        match c.rest with
        | [] => c.atNext .unfinishedValue
        | ']' :: _ => c.atNext .trailingComma
        | _ => .ok (true, c)
      else c.atNext .expectedArrayEnd

def readKey (afterComma : Bool) (c : Cursor) : Except Error (Option String × Cursor) :=
  match c.rest with
  | [] => c.atNext .unfinishedValue
  | d :: _ =>
      if d = '"' then do
        let (key, c) ← readString c.advance
        return (some key, c)
      else if d = '\x7d' ∧ afterComma then c.atNext .trailingComma
      else c.atNext .keyNotString

/-- The next key, or none at the cursor where the bracket stands. -/
def nextKey (first : Bool) (c : Cursor) : Except Error (Option String × Cursor) :=
  let c := c.skipBlank
  match c.rest with
  | [] => c.atNext .unfinishedObject
  | d :: _ =>
      if d = '\x7d' then .ok (none, c)
      else if first then readKey false c
      else if d = ',' then readKey true c.advance.skipBlank
      else c.atNext .expectedObjectEnd

def readColon (c : Cursor) : Except Error Cursor :=
  let c := c.skipBlank
  match c.rest with
  | [] => c.atNext .unfinishedObject
  | ':' :: _ => .ok c.advance
  | _ => c.atNext .expectedColon

section Loops

variable {σ ε : Type} (fault : Error → ε)

def foldElements (step : σ → Cursor → Except ε (σ × Cursor)) :
    (steps : List Char) → Bool → σ → Cursor → Except ε (σ × Cursor)
  | [], _, s, c => .ok (s, c)
  | _ :: steps, first, s, c =>
      match nextElement first c with
      | .error e => .error (fault e)
      | .ok (false, c) => .ok (s, c)
      | .ok (true, c) =>
          match step s c with
          | .error e => .error e
          | .ok (s, c) => foldElements step steps false s c

/-- The step gets the key, and the cursor before the colon. -/
def foldMembers (step : σ → String → Cursor → Except ε (σ × Cursor)) :
    (steps : List Char) → Bool → σ → Cursor → Except ε (σ × Cursor)
  | [], _, s, c => .ok (s, c)
  | _ :: steps, first, s, c =>
      match nextKey first c with
      | .error e => .error (fault e)
      | .ok (none, c) => .ok (s, c)
      | .ok (some key, c) =>
          match step s key c with
          | .error e => .error e
          | .ok (s, c) => foldMembers step steps false s c

end Loops

/-- One step for each character that is left, and one to find the bracket. -/
def stepsFrom (c : Cursor) : List Char := ' ' :: c.rest

/-- The rest of a word whose first letter told which one it is. -/
def readWord : List Char → Cursor → Except Error Cursor
  | [], c => .ok c
  | w :: ws, c =>
      match c.rest with
      | [] => c.here .unfinishedValue
      | d :: _ => if d = w then readWord ws c.advance else c.atNext .expectedWord

abbrev ValueReader := Cursor → Except Error (Value × Cursor)

def readElements (nested : ValueReader) (c : Cursor) : Except Error (Value × Cursor) := do
  let step (vs : List Value) (c : Cursor) : Except Error (List Value × Cursor) := do
    let (v, c) ← nested c
    return (v :: vs, c)
  let (vs, c) ← foldElements id step (stepsFrom c) true [] c
  return (.array vs.reverse, c.advance)

def readMembers (nested : ValueReader) (c : Cursor) : Except Error (Value × Cursor) := do
  let step (ms : List (String × Value)) (key : String) (c : Cursor) :
      Except Error (List (String × Value) × Cursor) := do
    let (v, c) ← nested (← readColon c)
    return ((key, v) :: ms, c)
  let (ms, c) ← foldMembers id step (stepsFrom c) true [] c
  return (.object ms.reverse, c.advance)

/-- Reads a value, with the reader for what stands in brackets if any may be opened. -/
def readWith (nested : Option ValueReader) (c : Cursor) : Except Error (Value × Cursor) :=
  let c := c.skipBlank
  match c.rest with
  | [] => c.atNext .unfinishedValue
  | d :: _ =>
      if d = 'n' then do return (.null, ← readWord ['u', 'l', 'l'] c.advance)
      else if d = 't' then do return (.bool true, ← readWord ['r', 'u', 'e'] c.advance)
      else if d = 'f' then do return (.bool false, ← readWord ['a', 'l', 's', 'e'] c.advance)
      else if d = '"' then do
        let (s, c) ← readString c.advance
        return (.string s, c)
      else if d = '-' then do
        let (n, c) ← readNumber true c.advance
        return (.number n, c)
      else if d.isDigit then do
        let (n, c) ← readNumber false c
        return (.number n, c)
      else if d = '[' ∨ d = '\x7b' then
        match nested with
        | none => c.atNext .tooDeep
        | some nested =>
            if d = '[' then readElements nested c.advance else readMembers nested c.advance
      else c.atNext .expectedValue

/-- Reads a value in which at most so many brackets are open at a time. -/
def readValue : Nat → ValueReader
  | 0 => readWith none
  | depth + 1 => readWith (some (readValue depth))

def readEnd (c : Cursor) : Except Error Unit :=
  let c := c.skipBlank
  if c.rest.isEmpty then .ok () else c.atNext .trailingCharacters

end Json
end GrammarRecords
