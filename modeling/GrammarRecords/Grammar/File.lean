/-
Grammars from the text of a grammar file.

The file is an object with a name and a table of rules among other things, or
an array of the two.  Its checks happen while the text is read, in text order.

A mismatch found inside brackets has no position at first.  It is reported
where the reader of the brackets gives up: behind the closing bracket if that
comes next, else where the next thing starts.
-/
import GrammarRecords.Grammar.Decoding
import GrammarRecords.Json.Skipper

namespace GrammarRecords

open Json (Cursor)

inductive FileFault where
  | malformed (fault : Json.Fault)
  | mismatch (mismatch : Mismatch)
deriving DecidableEq, Repr

def FileFault.message : FileFault → String
  | .malformed fault => fault.message
  | .mismatch m => m.message

/-- Why a text is not a grammar file, and where that shows. -/
structure FileError where
  fault : FileFault
  position : Json.Position
deriving DecidableEq, Repr

def FileError.message (e : FileError) : String :=
  e.fault.message ++ e.position.message

/-- An error with its position, or a mismatch with the place up to which was read. -/
inductive Trouble where
  | placed (e : FileError)
  | pending (m : Mismatch) (c : Cursor)
deriving DecidableEq, Repr

namespace Trouble

def ofReader (e : Json.Error) : Trouble := .placed ⟨.malformed e.fault, e.position⟩

def leaveObject : Trouble → Trouble
  | .placed e => .placed e
  | .pending m c =>
      let c := c.skipBlank
      match c.rest with
      | '\x7d' :: _ => .placed ⟨.mismatch m, c.advance.position⟩
      | _ => .placed ⟨.mismatch m, c.position⟩

/-- Gives up on an array, where a comma may come next as well. -/
def leaveArray : Trouble → Trouble
  | .placed e => .placed e
  | .pending m c =>
      let c := c.skipBlank
      match c.rest with
      | ']' :: _ => .placed ⟨.mismatch m, c.advance.position⟩
      | ',' :: _ => .placed ⟨.mismatch m, c.advance.skipBlank.position⟩
      | _ => .placed ⟨.mismatch m, c.position⟩

def error (t : Trouble) : FileError :=
  match t with
  | .placed e => e
  | .pending m c => ⟨.mismatch m, c.position⟩

end Trouble

namespace GrammarFile

/-- How many brackets may be open at a time inside a rule of the file. -/
def depthInRule : Nat := 124

def reading {α : Type} (r : Except Json.Error α) : Except Trouble α :=
  r.mapError .ofReader

def mismatchAt {α : Type} (m : Mismatch) (c : Cursor) : Except Trouble α :=
  .error (.placed ⟨.mismatch m, c.position⟩)

/-- A value that is not of the kind that is due; scalars are read to their end first. -/
def readForeign {α : Type} (expected : Expected) (c : Cursor) : Except Trouble α :=
  match c.rest with
  | '[' :: _ => mismatchAt (.wrongKind .sequence expected) c
  | '\x7b' :: _ => mismatchAt (.wrongKind .map expected) c
  | _ => do
      let (v, c) ← reading (Json.readWith none c)
      mismatchAt (.wrongKind v.outline expected) c

def readText (expected : Expected) (c : Cursor) : Except Trouble (String × Cursor) :=
  let c := c.skipBlank
  match c.rest with
  | '"' :: _ => reading (Json.readString c.advance)
  | _ => readForeign expected c

/-- The tag of a rule of the file, which only a name can be. -/
def readTag (c : Cursor) : Except Trouble (Tag × Cursor) := do
  let (name, c) ← readText .tag c
  match Tag.ofText name with
  | .ok tag => return (tag, c)
  | .error m => mismatchAt m c

/-- The tag and the members of a rule as met so far, the last member first. -/
structure Members where
  tag : Option Tag
  members : List (String × Json.Value)

def readMember (s : Members) (key : String) (c : Cursor) : Except Trouble (Members × Cursor) := do
  if key = "type" then
    if s.tag.isSome then throw (.pending (.duplicateKey key) c)
    let (tag, c) ← readTag (← reading (Json.readColon c))
    return (⟨some tag, s.members⟩, c)
  else
    let (v, c) ← reading (Json.readValue depthInRule (← reading (Json.readColon c)))
    return (⟨s.tag, (key, v) :: s.members⟩, c)

/-- Reads behind the opening bracket; gives the tag and the other members. -/
def readObject (c : Cursor) : Except Trouble ((Tag × List (String × Json.Value)) × Cursor) := do
  let (s, c) ←
    (Json.foldMembers .ofReader readMember (Json.stepsFrom c) true ⟨none, []⟩ c).mapError
      .leaveObject
  match s.tag with
  | some tag => return ((tag, s.members.reverse), c.advance)
  | none => throw (Trouble.pending (.missingKey "type") c).leaveObject

def readElement (vs : List Json.Value) (c : Cursor) :
    Except Trouble (List Json.Value × Cursor) := do
  let (v, c) ← reading (Json.readValue depthInRule c)
  return (v :: vs, c)

/-- Reads behind the opening bracket; gives the tag and the other elements. -/
def readArray (c : Cursor) : Except Trouble ((Tag × List Json.Value) × Cursor) := do
  let (more, c) ← reading (Json.nextElement true c)
  if more then
    let (tag, c) ← readTag c
    let (vs, c) ← Json.foldElements .ofReader readElement (Json.stepsFrom c) false [] c
    return ((tag, vs.reverse), c.advance)
  else throw (Trouble.pending (.missingKey "type") c).leaveArray

/-- A rule is read in full before its payload is looked at. -/
def readRule (c : Cursor) : Except Trouble (Expression × Cursor) := do
  let c := c.skipBlank
  let (decoded, c) ← match c.rest with
    | '\x7b' :: _ => do
        let ((tag, members), c) ← readObject c.advance
        pure (Expression.ofMembers tag none members, c)
    | '[' :: _ => do
        let ((tag, fields), c) ← readArray c.advance
        pure (Expression.ofFields tag fields, c)
    | _ => readForeign .expression c
  match decoded with
  | .ok e => return (e, c)
  | .error m => throw (.pending m c)

/-- Repeated rules replace the body and keep the place. -/
def readRules (c : Cursor) : Except Trouble (Table String Expression × Cursor) := do
  let c := c.skipBlank
  match c.rest with
  | '\x7b' :: _ =>
      let step (rules : Table String Expression) (name : String) (c : Cursor) := do
        let (e, c) ← readRule (← reading (Json.readColon c))
        return (rules.insert name e, c)
      let (rules, c) ←
        (Json.foldMembers .ofReader step (Json.stepsFrom c) true .empty c.advance).mapError
          .leaveObject
      return (rules, c.advance)
  | _ => readForeign .table c

/-- The parts of the file that count, as far as they were met. -/
structure Parts where
  name : Option String
  rules : Option (Table String Expression)

def readPart (s : Parts) (key : String) (c : Cursor) : Except Trouble (Parts × Cursor) := do
  if key = "name" then
    if s.name.isSome then throw (.pending (.duplicateKey key) c)
    let (name, c) ← readText .text (← reading (Json.readColon c))
    return (⟨some name, s.rules⟩, c)
  else if key = "rules" then
    if s.rules.isSome then throw (.pending (.duplicateKey key) c)
    let (rules, c) ← readRules (← reading (Json.readColon c))
    return (⟨s.name, some rules⟩, c)
  else
    let c ← reading (Json.skipValue (← reading (Json.readColon c)))
    return (s, c)

abbrev Contents := String × Table String Expression

def readFileObject (c : Cursor) : Except Trouble (Contents × Cursor) := do
  let (s, c) ←
    (Json.foldMembers .ofReader readPart (Json.stepsFrom c) true ⟨none, none⟩ c).mapError
      .leaveObject
  match s.name, s.rules with
  | some name, some rules => return ((name, rules), c.advance)
  | none, _ => throw (Trouble.pending (.missingKey "name") c).leaveObject
  | some _, none => throw (Trouble.pending (.missingKey "rules") c).leaveObject

def closeArray (c : Cursor) : Except Json.Error Cursor :=
  let c := c.skipBlank
  match c.rest with
  | [] => c.atNext .unfinishedArray
  | ']' :: _ => .ok c.advance
  | ',' :: _ =>
      let c := c.advance.skipBlank
      match c.rest with
      | ']' :: _ => c.atNext .trailingComma
      | _ => c.atNext .trailingCharacters
  | _ => c.atNext .trailingCharacters

def readFileArray (c : Cursor) : Except Trouble (Contents × Cursor) := do
  let (more, c) ← reading (Json.nextElement true c)
  if !more then throw (Trouble.pending (.shortGrammar 0) c).leaveArray
  let (name, c) ← readText .text c
  let (more, c) ← reading (Json.nextElement false c)
  if !more then throw (Trouble.pending (.shortGrammar 1) c).leaveArray
  let (rules, c) ← readRules c
  let c ← reading (closeArray c)
  return ((name, rules), c)

def read (c : Cursor) : Except Trouble Contents := do
  let c := c.skipBlank
  let (contents, c) ← match c.rest with
    | '\x7b' :: _ => readFileObject c.advance
    | '[' :: _ => readFileArray c.advance
    | _ => readForeign .grammar c
  reading (Json.readEnd c)
  return contents

end GrammarFile

namespace Grammar

/-- The grammar of the parts of a file, every rule lowered. -/
def ofContents (contents : GrammarFile.Contents) : Grammar :=
  ⟨contents.1, contents.2.mapValues Expression.body⟩

def ofFileText (text : String) : Except FileError Grammar :=
  match GrammarFile.read (.ofText text) with
  | .ok contents => .ok (ofContents contents)
  | .error t => .error t.error

end Grammar
end GrammarRecords
