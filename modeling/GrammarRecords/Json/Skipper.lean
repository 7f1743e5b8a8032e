/-
Moves over a value that is not needed.

Nothing is built, so brackets may be nested to any depth and numbers may have
any magnitude.  Behind a comma this reader looks for a value or a key at once,
so a trailing comma shows as the lack of one.
-/
import GrammarRecords.Json.Reader

namespace GrammarRecords
namespace Json

/-- Moves over a key, where a member has to start. -/
def skipKey (c : Cursor) : Except Error Cursor :=
  match c.rest with
  | [] => c.atNext .unfinishedObject
  | '"' :: _ => skipString c.advance
  | _ => c.atNext .keyNotString

mutual

def skipValueIn : Nat → Cursor → Except Error Cursor
  | 0, c => .ok c
  | fuel + 1, c =>
      let c := c.skipBlank
      match c.rest with
      | [] => c.atNext .unfinishedValue
      | d :: _ =>
          if d = 'n' then readWord ['u', 'l', 'l'] c.advance
          else if d = 't' then readWord ['r', 'u', 'e'] c.advance
          else if d = 'f' then readWord ['a', 'l', 's', 'e'] c.advance
          else if d = '"' then skipString c.advance
          else if d = '-' then skipNumber c.advance
          else if d.isDigit then skipNumber c
          else if d = '[' then
            let c := c.advance.skipBlank
            match c.rest with
            | [] => c.atNext .unfinishedArray
            | ']' :: _ => .ok c.advance
            | _ => skipElementsIn fuel c
          else if d = '\x7b' then
            let c := c.advance.skipBlank
            match c.rest with
            | [] => c.atNext .unfinishedObject
            | '\x7d' :: _ => .ok c.advance
            | _ => skipMembersIn fuel c
          else c.atNext .expectedValue

/-- From an element to behind the bracket. -/
def skipElementsIn : Nat → Cursor → Except Error Cursor
  | 0, c => .ok c
  | fuel + 1, c => do
      let c ← skipValueIn fuel c
      let c := c.skipBlank
      match c.rest with
      | [] => c.atNext .unfinishedArray
      | ',' :: _ => skipElementsIn fuel c.advance
      | ']' :: _ => return c.advance
      | _ => c.atNext .expectedArrayEnd

/-- From a key to behind the bracket. -/
def skipMembersIn : Nat → Cursor → Except Error Cursor
  | 0, c => .ok c
  | fuel + 1, c => do
      let c ← skipKey c.skipBlank
      let c ← skipValueIn fuel (← readColon c)
      let c := c.skipBlank
      match c.rest with
      | [] => c.atNext .unfinishedObject
      | ',' :: _ => skipMembersIn fuel c.advance
      | '\x7d' :: _ => return c.advance
      | _ => c.atNext .expectedObjectEnd

end

/-- Each call inside uses up a character or is the first at its place. -/
def skipValue (c : Cursor) : Except Error Cursor :=
  skipValueIn (2 * c.rest.length + 2) c

end Json
end GrammarRecords
