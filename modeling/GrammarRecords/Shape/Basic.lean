/-
Shapes: what is left of a parse result when literal text is dropped.

The constructors of the type build any tree.  `ofParts`, `ofOptions` and
`wrapped` build the normal ones: they drop empty members, and a product or sum
of one member is that member.
-/

namespace GrammarRecords

inductive ContainerKind where
  | list
  | nonEmptyList
  | optional
deriving DecidableEq, Repr

inductive Shape where
  | empty
  | rule (name : String)
  | sequence (parts : List Shape)
  | choice (options : List Shape)
  | container (kind : ContainerKind) (inner : Shape)

namespace Shape

mutual

private def decideEq : (a b : Shape) → Decidable (a = b)
  | .empty, .empty => .isTrue rfl
  | .rule n, .rule m =>
      if h : n = m then .isTrue (by rw [h])
      else .isFalse (by intro e; injection e; contradiction)
  | .sequence ps, .sequence qs =>
      match decideEqMembers ps qs with
      | .isTrue h => .isTrue (by rw [h])
      | .isFalse h => .isFalse (by intro e; injection e; contradiction)
  | .choice ps, .choice qs =>
      match decideEqMembers ps qs with
      | .isTrue h => .isTrue (by rw [h])
      | .isFalse h => .isFalse (by intro e; injection e; contradiction)
  | .container k a, .container l b =>
      if hk : k = l then
        match decideEq a b with
        | .isTrue h => .isTrue (by rw [hk, h])
        | .isFalse h => .isFalse (by intro e; injection e; contradiction)
      else .isFalse (by intro e; injection e; contradiction)
  | .empty, .rule _ | .empty, .sequence _ | .empty, .choice _ | .empty, .container _ _
  | .rule _, .empty | .rule _, .sequence _ | .rule _, .choice _ | .rule _, .container _ _
  | .sequence _, .empty | .sequence _, .rule _ | .sequence _, .choice _
  | .sequence _, .container _ _
  | .choice _, .empty | .choice _, .rule _ | .choice _, .sequence _ | .choice _, .container _ _
  | .container _ _, .empty | .container _ _, .rule _ | .container _ _, .sequence _
  | .container _ _, .choice _ => .isFalse (by intro e; cases e)

private def decideEqMembers : (as bs : List Shape) → Decidable (as = bs)
  | [], [] => .isTrue rfl
  | [], _ :: _ => .isFalse (by intro e; cases e)
  | _ :: _, [] => .isFalse (by intro e; cases e)
  | a :: as, b :: bs =>
      match decideEq a b with
      | .isTrue h =>
          match decideEqMembers as bs with
          | .isTrue h' => .isTrue (by rw [h, h'])
          | .isFalse h' => .isFalse (by intro e; injection e; contradiction)
      | .isFalse h => .isFalse (by intro e; injection e; contradiction)

end

instance : DecidableEq Shape := decideEq

instance : Inhabited Shape := ⟨.empty⟩

def isEmpty : Shape → Bool
  | .empty => true
  | _ => false

def isRule : Shape → Bool
  | .rule _ => true
  | _ => false

def isSequence : Shape → Bool
  | .sequence _ => true
  | _ => false

def isChoice : Shape → Bool
  | .choice _ => true
  | _ => false

def isContainer : Shape → Bool
  | .container _ _ => true
  | _ => false

def ruleName? : Shape → Option String
  | .rule name => some name
  | _ => none

def containerKind? : Shape → Option ContainerKind
  | .container kind _ => some kind
  | _ => none

def inner? : Shape → Option Shape
  | .container _ inner => some inner
  | _ => none

/-- The parts of a sequence; any other shape has none. -/
def parts : Shape → List Shape
  | .sequence parts => parts
  | _ => []

/-- The options of a choice; any other shape has none. -/
def options : Shape → List Shape
  | .choice options => options
  | _ => []

/-- One member stands for itself, none for the empty shape. -/
def gather (build : List Shape → Shape) : List Shape → Shape
  | [] => .empty
  | [s] => s
  | members => build members

def informative (members : List Shape) : List Shape :=
  members.filter fun s => !s.isEmpty

def ofParts (parts : List Shape) : Shape :=
  gather .sequence (informative parts)

def ofOptions (options : List Shape) : Shape :=
  gather .choice (informative options)

/-- The normal container: nothing wrapped is nothing. -/
def wrapped (kind : ContainerKind) (inner : Shape) : Shape :=
  if inner.isEmpty then .empty else .container kind inner

mutual

/-- The rule names in a shape from left to right, with repetitions. -/
def references : Shape → List String
  | .empty => []
  | .rule name => [name]
  | .sequence parts => referencesOfMembers parts
  | .choice options => referencesOfMembers options
  | .container _ inner => references inner

def referencesOfMembers : List Shape → List String
  | [] => []
  | s :: rest => references s ++ referencesOfMembers rest

end

theorem referencesOfMembers_eq_flatMap (members : List Shape) :
    referencesOfMembers members = members.flatMap references := by
  induction members with
  | nil => rfl
  | cons s rest ih => rw [referencesOfMembers, ih, List.flatMap_cons]

end Shape
end GrammarRecords
