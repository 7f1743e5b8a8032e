/-
The shape of a grammar tree.  Children come first and are combined by the
normalizing constructors, so the result is normal at every depth.
-/
import GrammarRecords.Grammar.Basic
import GrammarRecords.Shape.Basic

namespace GrammarRecords

namespace Node

mutual

/-- Literal text and unknown constructs carry no information. -/
def shape : Node → Shape
  | .mk kind text children =>
      match kind with
      | .ruleDefinition | .ruleReference =>
          match text with
          | some name => .rule name
          | none => .empty
      | .alternative => .ofParts (shapes children)
      | .block => .ofOptions (shapes children)
      | .zeroOrMore => .wrapped .list (.ofParts (shapes children))
      | .oneOrMore => .wrapped .nonEmptyList (.ofParts (shapes children))
      | .optional => .wrapped .optional (.ofParts (shapes children))
      | .terminal | .other => .empty

def shapes : List Node → List Shape
  | [] => []
  | n :: rest => shape n :: shapes rest

end

end Node

/-- The shape of a rule, or nothing if no alternative is present. -/
def RuleBody.shape? (body : RuleBody) : Option Shape :=
  match body.present with
  | [] => none
  | alternatives => some (.ofOptions (Node.shapes alternatives))

end GrammarRecords
