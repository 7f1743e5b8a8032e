/-
Shapes, records and models as JSON values.
-/
import GrammarRecords.Json.Printer
import GrammarRecords.Model

namespace GrammarRecords

def ContainerKind.name : ContainerKind → String
  | list => "List"
  | nonEmptyList => "NonEmptyList"
  | optional => "Optional"

namespace Shape

mutual

def toJson : Shape → Json.Value
  | empty => .string "Empty"
  | rule name => .object [("Rule", .string name)]
  | sequence parts => .object [("Sequence", .array (toJsonAll parts))]
  | choice options => .object [("Choice", .array (toJsonAll options))]
  | container kind inner =>
      .object [("Container", .object [("kind", .string kind.name), ("inner", toJson inner)])]

def toJsonAll : List Shape → List Json.Value
  | [] => []
  | s :: rest => toJson s :: toJsonAll rest

end

end Shape

def shapesToJson (shapes : Table String Shape) : Json.Value :=
  .object (shapes.entries.map fun p => (p.1, p.2.toJson))

def Record.toJson (r : Record) : Json.Value :=
  .object [("name", .string r.name), ("fields", shapesToJson r.fields)]

namespace Model

def toJson (m : Model) : Json.Value := shapesToJson m.shapes

def recordsToJson (m : Model) : Json.Value :=
  .array (m.records.map Record.toJson)

end Model
end GrammarRecords
