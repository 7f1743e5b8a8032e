/-
Escapes for generated source.

A grammar literal stands between single quotes, the target's literal between
double quotes.  The two share most escapes; `\u` is text in a grammar literal
but an escape in the target, so its backslash is doubled.
-/
import GrammarRecords.Text.Digits

namespace GrammarRecords
namespace Literal

open Text

/-- The backslashes that the target needs before an escaped character `c`. -/
def escapeLead (c : Char) : List Char :=
  if c ∈ ['"', 'n', 'r', 't', 'b', 'f', '\\'] then ['\\']
  else if c = 'u' then ['\\', '\\']
  else []

/--
Translates what follows the opening quote.  The last character is the closing
quote and is not written, unless a backslash before it escapes it.
-/
def bodyChars : List Char → List Char
  | [] => []
  | [_] => []
  | c :: d :: rest =>
      if c = '\\' then escapeLead d ++ d :: bodyChars rest
      else if c = '"' then '\\' :: '"' :: bodyChars (d :: rest)
      else c :: bodyChars (d :: rest)

/-- The target's literal for a grammar literal, with or without its quotes. -/
def ofGrammarLiteral (literal : String) (quoted : Bool) : String :=
  let body := bodyChars (literal.toList.drop 1)
  String.ofList (if quoted then '"' :: (body ++ ['"']) else body)

/-- The only code points that no escape can write. -/
inductive EscapeError where
  | unencodable (value : Nat)
deriving DecidableEq, Repr

def EscapeError.message : EscapeError → String
  | .unencodable value => "cannot encode the specified value: " ++ toString value

def octalChars (n : Nat) : List Char :=
  Nat.toDigits 8 n

/-- The two-character escapes of the target, by code point. -/
def namedEscape? (value : Nat) : Option Char :=
  if value = 0x0a then some 'n'
  else if value = 0x0d then some 'r'
  else if value = 0x09 then some 't'
  else if value = 0x08 then some 'b'
  else if value = 0x0c then some 'f'
  else if value = 0x5c then some '\\'
  else if value = 0x27 then some '\''
  else if value = 0x22 then some '"'
  else none

/--
The characters that stand for themselves.  The digits `0` to `7` do not: after
an octal escape they would be read as part of it.
-/
def isPlain (value : Nat) : Bool :=
  0x20 ≤ value && value < 0x7f && !(0x30 ≤ value && value < 0x38)

def codePointChars (value : Nat) : List Char :=
  match namedEscape? value with
  | some c => ['\\', c]
  | none =>
      if isPlain value then [Char.ofNat value]
      else if value ≤ 0x7f then '\\' :: octalChars value
      else '\\' :: 'u' :: hex4 value

/-- The escape of one code point; a surrogate has one, a supplementary one has none. -/
def ofCodePoint (value : Nat) : Except EscapeError String :=
  if value ≤ 0xffff then .ok (String.ofList (codePointChars value))
  else .error (.unencodable value)

/-- Writes the backslash of each `\u` as an escape, so that the pair stays text. -/
def guardChars : List Char → List Char
  | [] => []
  | [c] => [c]
  | c :: d :: rest =>
      if c = '\\' ∧ d = 'u' then ['\\', 'u', '0', '0', '5', 'C', 'u'] ++ guardChars rest
      else c :: guardChars (d :: rest)

def guardUnicodeEscapes (text : String) : String :=
  String.ofList (guardChars text.toList)

end Literal
end GrammarRecords
