/-
Rule expressions from JSON values.

A rule expression is an object with a tag, or an array that starts with one.
The tag may stand anywhere in the object and decides which other key counts.
Keys that do not count may have any value and may be repeated.
-/
import GrammarRecords.Grammar.Tag
import GrammarRecords.Json.Value
import GrammarRecords.Text.Quoted

namespace GrammarRecords

/-- What was due where a value of another kind stood. -/
inductive Expected where
  | grammar
  | text
  | table
  | expression
  | sequence
  | tag
deriving DecidableEq, Repr

def Expected.phrase : Expected → String
  | .grammar => "struct RawGrammar"
  | .text => "a string"
  | .table => "a map"
  | .expression => "internally tagged enum RawRule"
  | .sequence => "a sequence"
  | .tag => "variant identifier"

/-- Why a JSON value does not describe a grammar. -/
inductive Mismatch where
  | duplicateKey (key : String)
  | missingKey (key : String)
  | wrongKind (found : Json.Outline) (expected : Expected)
  | unknownTag (text : String)
  | tagNumber (n : Nat)
  | noPayload (tag : Tag)
  | tooManyFields (given due : Nat)
  | shortGrammar (given : Nat)
deriving DecidableEq, Repr

def describe : Json.Outline → String
  | .null => "null"
  | .bool true => "boolean `true`"
  | .bool false => "boolean `false`"
  | .number (.float sign x) => "floating point `" ++ Decimal.text sign x ++ "`"
  | .number n => "integer `" ++ n.text ++ "`"
  | .string s => "string " ++ Text.quoted s
  | .sequence => "sequence"
  | .map => "map"

def elementCount (n : Nat) : String :=
  toString n ++ if n = 1 then " element" else " elements"

def Mismatch.message : Mismatch → String
  | .duplicateKey key => "duplicate field `" ++ key ++ "`"
  | .missingKey key => "missing field `" ++ key ++ "`"
  | .wrongKind found expected =>
      "invalid type: " ++ describe found ++ ", expected " ++ expected.phrase
  | .unknownTag text =>
      "unknown variant `" ++ text ++ "`, expected one of " ++
        ", ".intercalate (Tag.all.map fun t => "`" ++ t.name ++ "`")
  | .tagNumber n =>
      "invalid value: integer `" ++ toString n ++ "`, expected variant index 0 <= i < " ++
        toString Tag.all.length
  | .noPayload tag =>
      "invalid length 0, expected struct variant RawRule::" ++ tag.name ++ " with 1 element"
  | .tooManyFields given due =>
      "invalid length " ++ toString given ++ ", expected " ++ elementCount due ++ " in sequence"
  | .shortGrammar given =>
      "invalid length " ++ toString given ++ ", expected struct RawGrammar with 2 elements"

namespace Tag

/-- A tag is given by its name; a number is one only where numbers are allowed. -/
def ofText (s : String) : Except Mismatch Tag :=
  match ofName? s with
  | some tag => .ok tag
  | none => .error (.unknownTag s)

def ofJson : Json.Value → Except Mismatch Tag
  | .string s => ofText s
  | .number (.natural n) =>
      match ofNumber? n with
      | some tag => .ok tag
      | none => .error (.tagNumber n)
  | v => .error (.wrongKind v.outline .tag)

def find : Option Tag → List (String × Json.Value) → Except Mismatch Tag
  | none, [] => .error (.missingKey "type")
  | some tag, [] => .ok tag
  | found, (key, v) :: rest =>
      if key = "type" then
        if found.isSome then .error (.duplicateKey key)
        else
          match ofJson v with
          | .ok tag => find (some tag) rest
          | .error e => .error e
      else find found rest

/-- Builds an expression from its payload, which is decoded only if it is of use. -/
def build (tag : Tag) (v : Json.Value) (expression : Unit → Except Mismatch Expression)
    (expressions : Unit → Except Mismatch (List Expression)) : Except Mismatch Expression :=
  match tag.payload with
  | .nothing => .ok .blank
  | .text f =>
      match v with
      | .string s => .ok (f s)
      | v => .error (.wrongKind v.outline .text)
  | .expression f => f <$> expression ()
  | .expressions f => f <$> expressions ()

end Tag

namespace Expression

mutual

def ofJson : Json.Value → Except Mismatch Expression
  | .array [] => .error (.missingKey "type")
  | .array (tag :: fields) => do ofFields (← Tag.ofJson tag) fields
  | .object members => do ofMembers (← Tag.find none members) none members
  | v => .error (.wrongKind v.outline .expression)

def ofJsonAll : List Json.Value → Except Mismatch (List Expression)
  | [] => .ok []
  | v :: rest => do return (← ofJson v) :: (← ofJsonAll rest)

def ofSequence : Json.Value → Except Mismatch (List Expression)
  | .array vs => ofJsonAll vs
  | v => .error (.wrongKind v.outline .sequence)

/-- Fields by position: the payload, if the tag has one, and nothing else. -/
def ofFields (tag : Tag) : List Json.Value → Except Mismatch Expression
  | [] => if tag.key?.isNone then .ok .blank else .error (.noPayload tag)
  | v :: rest =>
      if tag.key?.isNone then .error (.tooManyFields (rest.length + 1) 0)
      else do
        let e ← tag.build v (fun _ => ofJson v) (fun _ => ofSequence v)
        if rest.isEmpty then return e else throw (.tooManyFields (rest.length + 1) 1)

/-- Fields by key; `found` is the expression once its payload is met. -/
def ofMembers (tag : Tag) (found : Option Expression) :
    List (String × Json.Value) → Except Mismatch Expression
  | [] =>
      match found, tag.key? with
      | some e, _ => .ok e
      | none, none => .ok .blank
      | none, some key => .error (.missingKey key)
  | (key, v) :: rest =>
      if tag.key? = some key then
        if found.isSome then .error (.duplicateKey key)
        else do
          let e ← tag.build v (fun _ => ofJson v) (fun _ => ofSequence v)
          ofMembers tag (some e) rest
      else ofMembers tag found rest

end

end Expression
end GrammarRecords
