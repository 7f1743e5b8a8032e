/-
Records: the shape of a rule with a name for each part.
-/
import GrammarRecords.Names
import GrammarRecords.Table
import GrammarRecords.Shape.Basic

namespace GrammarRecords

structure Record where
  name : String
  fields : Table String Shape
deriving DecidableEq, Inhabited

/--
The name of a field before collisions are resolved: that of the rule it holds,
through any number of containers, or a placeholder.
-/
def Shape.fieldName : Shape → String
  | .empty => "value"
  | .rule name => name
  | .container _ inner => fieldName inner
  | .sequence _ | .choice _ => "ast"

/--
Names given so far within one record, and for each base the suffix to try
next.  A suffix is tried once: the names in `taken` never become free again.
-/
structure FieldNamer where
  taken : List String
  nextSuffix : Table String Nat

namespace FieldNamer

def start : FieldNamer := ⟨[], .empty⟩

def assign (namer : FieldNamer) (base : String) : String × FieldNamer :=
  if base ∈ namer.taken then
    let suffix :=
      Names.leastFree namer.taken (Names.numbered base) ((namer.nextSuffix.get? base).getD 1)
    let name := Names.numbered base suffix
    (name, ⟨name :: namer.taken, namer.nextSuffix.insert base (suffix + 1)⟩)
  else
    (base, ⟨base :: namer.taken, namer.nextSuffix⟩)

def assignAll (namer : FieldNamer) : List Shape → List (String × Shape)
  | [] => []
  | s :: rest =>
      let (name, namer) := namer.assign s.fieldName
      (name, s) :: assignAll namer rest

end FieldNamer

/-- The parts of a sequence; any other shape is its only member. -/
def Shape.members : Shape → List Shape
  | .sequence parts => parts
  | s => [s]

/-- The record of the rule `name`, with one field per member of its shape. -/
def Shape.record (name : String) (shape : Shape) : Record :=
  ⟨name, .ofList (FieldNamer.start.assignAll shape.members)⟩

namespace Record

def field? (r : Record) (name : String) : Option Shape :=
  r.fields.get? name

def fieldNames (r : Record) : List String :=
  r.fields.keys

end Record
end GrammarRecords
