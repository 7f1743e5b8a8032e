/-
The model of a grammar: the shape of every rule, in declaration order, and
the rules that contain a reference to themselves at some distance.

The search for a cycle keeps the rules met so far apart from those whose
references are still to be followed.  A rule enters both lists when it is met
first, so the number of steps is bounded by the number of references.
-/
import GrammarRecords.Record
import GrammarRecords.Shape.Synthesis

namespace GrammarRecords

structure Model where
  shapes : Table String Shape
deriving DecidableEq, Inhabited

/-- Rules without a present alternative have no shape and are left out. -/
def Grammar.model (g : Grammar) : Model :=
  ⟨g.rules.filterMapValues RuleBody.shape?⟩

namespace Model

def ofList (shapes : List (String × Shape)) : Model :=
  ⟨.ofList shapes⟩

def size (m : Model) : Nat := m.shapes.size

def isEmpty (m : Model) : Bool := m.shapes.isEmpty

def shape? (m : Model) (rule : String) : Option Shape :=
  m.shapes.get? rule

def rules (m : Model) : List String := m.shapes.keys

def records (m : Model) : List Record :=
  m.shapes.entries.map fun p => p.2.record p.1

/-- What a rule refers to; an undeclared rule refers to nothing. -/
def referencesOf (m : Model) (rule : String) : List String :=
  match m.shape? rule with
  | some shape => shape.references
  | none => []

def referenceCount (m : Model) : Nat :=
  m.shapes.values.foldr (fun s count => s.references.length + count) 0

/-- The rules met, and those of them whose references are not yet followed. -/
structure Frontier where
  met : List String
  pending : List String

/-- Adds the rules that were not met before to both lists. -/
def Frontier.meet (f : Frontier) : List String → Frontier
  | [] => f
  | rule :: rest =>
      if rule ∈ f.met then meet f rest
      else meet ⟨rule :: f.met, rule :: f.pending⟩ rest

def searchFrom (m : Model) (target : String) : Nat → Frontier → Bool
  | 0, _ => false
  | fuel + 1, f =>
      match f.pending with
      | [] => false
      | rule :: rest =>
          let next := m.referencesOf rule
          if target ∈ next then true
          else searchFrom m target fuel (Frontier.meet ⟨f.met, rest⟩ next)

/-- Whether following references from `source`, at least once, leads to `target`. -/
def reaches (m : Model) (source target : String) : Bool :=
  searchFrom m target (m.referenceCount + 2) ⟨[], [source]⟩

/-- The rules that reach themselves, in declaration order. -/
def cyclicRules (m : Model) : List String :=
  m.rules.filter fun rule => m.reaches rule rule

end Model
end GrammarRecords
