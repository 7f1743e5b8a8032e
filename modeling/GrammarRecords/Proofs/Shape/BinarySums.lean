/-
Shapes with sums of two options.

Every dialect writes a sum of two, so a sum of more options is written as if
the options after the first were a sum of their own.  `Shape.binary` makes this
nesting explicit.  A sum of no option and a sum of one option have no form
here: the one is the empty shape, the other its option.
-/
import GrammarRecords.Shape.Basic

namespace GrammarRecords

inductive BinaryShape where
  | empty
  | rule (name : String)
  | sequence (parts : List BinaryShape)
  | sum (left right : BinaryShape)
  | container (kind : ContainerKind) (inner : BinaryShape)

namespace Shape

mutual

def binary : Shape → BinaryShape
  | .empty => .empty
  | .rule name => .rule name
  | .sequence parts => .sequence (binaryParts parts)
  | .choice options => binarySum options
  | .container kind inner => .container kind (binary inner)

def binaryParts : List Shape → List BinaryShape
  | [] => []
  | part :: rest => binary part :: binaryParts rest

/-- The options after the first, if there are any, are a sum of their own. -/
def binarySum : List Shape → BinaryShape
  | [] => .empty
  | [option] => binary option
  | option :: rest => .sum (binary option) (binarySum rest)

end

theorem binarySum_cons (option next : Shape) (rest : List Shape) :
    binarySum (option :: next :: rest) = .sum option.binary (binarySum (next :: rest)) := by
  rw [binarySum]
  exact List.cons_ne_nil next rest

end Shape

namespace BinaryShape

mutual

/-- The rule names from left to right, with repetitions. -/
def references : BinaryShape → List String
  | .empty => []
  | .rule name => [name]
  | .sequence parts => referencesOfParts parts
  | .sum left right => references left ++ references right
  | .container _ inner => references inner

def referencesOfParts : List BinaryShape → List String
  | [] => []
  | part :: rest => references part ++ referencesOfParts rest

end

end BinaryShape

namespace Shape

mutual

/-- Nesting keeps every rule name where it is. -/
theorem references_binary : ∀ s : Shape, s.binary.references = s.references
  | .empty => rfl
  | .rule _ => rfl
  | .sequence parts => by
      rw [binary, BinaryShape.references, references, references_binaryParts parts]
  | .choice options => by
      rw [binary, references, references_binarySum options]
  | .container _ inner => by
      rw [binary, BinaryShape.references, references, references_binary inner]

theorem references_binaryParts : ∀ parts : List Shape,
    BinaryShape.referencesOfParts (binaryParts parts) = referencesOfMembers parts
  | [] => rfl
  | part :: rest => by
      rw [binaryParts, BinaryShape.referencesOfParts, referencesOfMembers,
        references_binary part, references_binaryParts rest]

theorem references_binarySum : ∀ options : List Shape,
    (binarySum options).references = referencesOfMembers options
  | [] => rfl
  | [option] => by
      rw [binarySum, referencesOfMembers, referencesOfMembers, List.append_nil,
        references_binary option]
  | option :: next :: rest => by
      rw [binarySum_cons, BinaryShape.references, references_binary option,
        references_binarySum (next :: rest)]
      rfl

end

end Shape
end GrammarRecords
