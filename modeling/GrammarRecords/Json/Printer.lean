/-
JSON text of a value, on one line or indented by two spaces for each level.

Only quotes, backslashes and control characters are escaped; a control
character has its short escape if there is one.
-/
import GrammarRecords.Json.Value
import GrammarRecords.Text.Digits

namespace GrammarRecords
namespace Json

def escapedChar (c : Char) : List Char :=
  if c = '"' then ['\\', '"']
  else if c = '\\' then ['\\', '\\']
  else if c.toNat = 0x08 then ['\\', 'b']
  else if c.toNat = 0x0c then ['\\', 'f']
  else if c.toNat = 0x0a then ['\\', 'n']
  else if c.toNat = 0x0d then ['\\', 'r']
  else if c.toNat = 0x09 then ['\\', 't']
  else if c.toNat < 0x20 then '\\' :: 'u' :: Text.hex4 c.toNat
  else [c]

def escapedChars : List Char → List Char
  | [] => []
  | c :: cs => escapedChar c ++ escapedChars cs

def stringText (s : String) : String :=
  String.ofList ('"' :: (escapedChars s.toList ++ ['"']))

namespace Value

mutual

def compact : Value → String
  | null => "null"
  | bool true => "true"
  | bool false => "false"
  | number n => n.text
  | string s => stringText s
  | array elements => "[" ++ compactElements elements ++ "]"
  | object members => "\x7b" ++ compactMembers members ++ "\x7d"

def compactElements : List Value → String
  | [] => ""
  | [v] => compact v
  | v :: rest => compact v ++ "," ++ compactElements rest

def compactMembers : List (String × Value) → String
  | [] => ""
  | [(k, v)] => stringText k ++ ":" ++ compact v
  | (k, v) :: rest => stringText k ++ ":" ++ compact v ++ "," ++ compactMembers rest

end

def lineBreak (level : Nat) : String :=
  String.ofList ('\n' :: List.replicate (2 * level) ' ')

mutual

/-- The indented text; the value itself starts where the text before it ends. -/
def prettyAt (level : Nat) : Value → String
  | null => "null"
  | bool true => "true"
  | bool false => "false"
  | number n => n.text
  | string s => stringText s
  | array [] => "[]"
  | array (v :: rest) =>
      "[" ++ prettyElements (level + 1) (v :: rest) ++ lineBreak level ++ "]"
  | object [] => "\x7b\x7d"
  | object (m :: rest) =>
      "\x7b" ++ prettyMembers (level + 1) (m :: rest) ++ lineBreak level ++ "\x7d"

def prettyElements (level : Nat) : List Value → String
  | [] => ""
  | [v] => lineBreak level ++ prettyAt level v
  | v :: rest => lineBreak level ++ prettyAt level v ++ "," ++ prettyElements level rest

def prettyMembers (level : Nat) : List (String × Value) → String
  | [] => ""
  | [(k, v)] => lineBreak level ++ stringText k ++ ": " ++ prettyAt level v
  | (k, v) :: rest =>
      lineBreak level ++ stringText k ++ ": " ++ prettyAt level v ++ "," ++
        prettyMembers level rest

end

def pretty (v : Value) : String := prettyAt 0 v

end Value
end Json
end GrammarRecords
