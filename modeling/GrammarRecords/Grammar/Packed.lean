/-
The packed form of a grammar: a mark, a version byte and the fields of the
grammar in order.

A node takes at least three bytes, so the number of bytes that are left bounds
the depth of the tree that they can hold; the reader of nodes recurs on it.
-/
import GrammarRecords.Grammar.Basic
import GrammarRecords.Packed.Field

namespace GrammarRecords

namespace NodeKind

def all : List NodeKind :=
  [ruleDefinition, ruleReference, alternative, block, zeroOrMore, oneOrMore, optional,
    terminal, other]

def tag : NodeKind → Nat
  | ruleDefinition => 0
  | ruleReference => 1
  | alternative => 2
  | block => 3
  | zeroOrMore => 4
  | oneOrMore => 5
  | optional => 6
  | terminal => 7
  | other => 8

def ofTag? (n : Nat) : Option NodeKind := all[n]?

theorem ofTag?_tag (k : NodeKind) : ofTag? k.tag = some k := by
  cases k <;> rfl

end NodeKind

namespace Node

open Packed

mutual

def packed : Node → Bytes
  | .mk kind text children =>
      number kind.tag ++ option Packed.text text ++ (number children.length ++ packedAll children)

def packedAll : List Node → Bytes
  | [] => []
  | n :: rest => packed n ++ packedAll rest

end

def readKind (bs : Bytes) : Except Fault (NodeKind × Bytes) := do
  let (n, rest) ← readTag bs
  match NodeKind.ofTag? n with
  | some kind => return (kind, rest)
  | none => throw .badTag

/-- Reads a tree of less than the given depth. -/
def readPacked : Nat → Bytes → Except Fault (Node × Bytes)
  | 0, _ => .error .endOfBuffer
  | depth + 1, bs => do
      let (kind, rest) ← readKind bs
      let (text, rest) ← readOption readText rest
      let (children, rest) ← readList (readPacked depth) rest
      return (.mk kind text children, rest)

end Node

namespace RuleBody

open Packed

def packed (body : RuleBody) : Bytes :=
  list (option Node.packed) body.alternatives

def readPacked (bs : Bytes) : Except Fault (RuleBody × Bytes) := do
  let (alternatives, rest) ← readList (readOption fun bs => Node.readPacked (bs.length + 1) bs) bs
  return (⟨alternatives⟩, rest)

end RuleBody

namespace Grammar

open Packed

inductive UnpackError where
  | notPacked
  | version (found : Nat)
  | payload (fault : Packed.Fault)
deriving DecidableEq, Repr

def mark : Bytes := [0x53, 0x48, 0x50, 0x47]

def formatVersion : UInt8 := 1

def UnpackError.message : UnpackError → String
  | .notPacked => "not a packed shapegen grammar"
  | .version found =>
      "packed grammar format version " ++ toString found ++ ", expected " ++
        toString formatVersion.toNat
  | .payload fault => "binary decode error: " ++ fault.message

def packedRule (rule : String × RuleBody) : Bytes :=
  Packed.text rule.1 ++ rule.2.packed

def readRule (bs : Bytes) : Except Fault ((String × RuleBody) × Bytes) := do
  let (name, rest) ← readText bs
  let (body, rest) ← RuleBody.readPacked rest
  return ((name, body), rest)

def payload (g : Grammar) : Bytes :=
  Packed.text g.name ++ list packedRule g.rules.entries

/-- A repeated rule replaces the body of the first and keeps its place. -/
def readPayload (bs : Bytes) : Except Fault (Grammar × Bytes) := do
  let (name, rest) ← readText bs
  let (rules, rest) ← readList readRule rest
  return (⟨name, .ofList rules⟩, rest)

def pack (g : Grammar) : Bytes :=
  mark ++ formatVersion :: g.payload

def unpack (bs : Bytes) : Except UnpackError Grammar :=
  if bs.take mark.length = mark then
    match bs.drop mark.length with
    | [] => .error .notPacked
    | version :: rest =>
        if version = formatVersion then
          match readPayload rest with
          | .ok (g, _) => .ok g
          | .error fault => .error (.payload fault)
        else .error (.version version.toNat)
  else .error .notPacked

end Grammar
end GrammarRecords
