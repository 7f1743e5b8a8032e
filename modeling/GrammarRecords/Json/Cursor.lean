/-
The place of a reader in a JSON text.

Columns count the bytes of the UTF-8 form, so a position may lie within a
character.  A fault is reported either at the cursor or a few bytes further,
where the bytes that show the fault end.
-/

namespace GrammarRecords
namespace Json

inductive Fault where
  | unfinishedValue
  | unfinishedString
  | unfinishedArray
  | unfinishedObject
  | expectedValue
  | expectedWord
  | expectedColon
  | expectedArrayEnd
  | expectedObjectEnd
  | trailingComma
  | trailingCharacters
  | keyNotString
  | invalidNumber
  | numberOutOfRange
  | invalidEscape
  | controlCharacter
  | loneSurrogate
  | unfinishedSurrogate
  | tooDeep
deriving DecidableEq, Repr

def Fault.message : Fault → String
  | .unfinishedValue => "EOF while parsing a value"
  | .unfinishedString => "EOF while parsing a string"
  | .unfinishedArray => "EOF while parsing a list"
  | .unfinishedObject => "EOF while parsing an object"
  | .expectedValue => "expected value"
  | .expectedWord => "expected ident"
  | .expectedColon => "expected `:`"
  | .expectedArrayEnd => "expected `,` or `]`"
  | .expectedObjectEnd => "expected `,` or `\x7d`"
  | .trailingComma => "trailing comma"
  | .trailingCharacters => "trailing characters"
  | .keyNotString => "key must be a string"
  | .invalidNumber => "invalid number"
  | .numberOutOfRange => "number out of range"
  | .invalidEscape => "invalid escape"
  | .controlCharacter =>
      "control character (\\u0000-\\u001F) found while parsing a string"
  | .loneSurrogate => "lone leading surrogate in hex escape"
  | .unfinishedSurrogate => "unexpected end of hex escape"
  | .tooDeep => "recursion limit exceeded"

/-- Lines count from one, columns from zero bytes. -/
structure Position where
  line : Nat
  column : Nat
deriving DecidableEq, Repr

namespace Position

def start : Position := ⟨1, 0⟩

def after (p : Position) (c : Char) : Position :=
  if c = '\n' then ⟨p.line + 1, 0⟩ else ⟨p.line, p.column + c.utf8Size⟩

/-- The position some bytes further, or at the end of the text. -/
def afterBytes (p : Position) : Nat → List Char → Position
  | 0, _ => p
  | _ + 1, [] => p
  | n + 1, c :: cs =>
      if c.utf8Size ≤ n + 1 then (p.after c).afterBytes (n + 1 - c.utf8Size) cs
      else ⟨p.line, p.column + (n + 1)⟩

def message (p : Position) : String :=
  " at line " ++ toString p.line ++ " column " ++ toString p.column

end Position

structure Error where
  fault : Fault
  position : Position
deriving DecidableEq, Repr

/-- What is left of a text, and where it starts. -/
structure Cursor where
  rest : List Char
  position : Position
deriving DecidableEq, Repr

namespace Cursor

def ofText (s : String) : Cursor := ⟨s.toList, .start⟩

def advance : Cursor → Cursor
  | ⟨[], p⟩ => ⟨[], p⟩
  | ⟨c :: rest, p⟩ => ⟨rest, p.after c⟩

/-- Moves over the characters of the class that come next. -/
def skipWhile (p : Char → Bool) (c : Cursor) : Cursor :=
  ⟨c.rest.dropWhile p, (c.rest.takeWhile p).foldl Position.after c.position⟩

def isBlank (c : Char) : Bool :=
  c == ' ' || c == '\t' || c == '\n' || c == '\r'

def skipBlank (c : Cursor) : Cursor := c.skipWhile isBlank

def ahead (c : Cursor) (bytes : Nat) : Position :=
  c.position.afterBytes bytes c.rest

def here {α : Type} (c : Cursor) (fault : Fault) : Except Error α :=
  .error ⟨fault, c.position⟩

/-- Reports a fault where the next byte ends. -/
def atNext {α : Type} (c : Cursor) (fault : Fault) : Except Error α :=
  .error ⟨fault, c.ahead 1⟩

end Cursor
end Json
end GrammarRecords
