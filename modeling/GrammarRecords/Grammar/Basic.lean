/-
Grammars as the rest of the library sees them: rules in declaration order,
each a list of alternatives, each alternative a tree of nodes.

A node keeps its kind, an optional text and its children apart, because a
packed grammar may hold any combination of the three; the constructors below
build the combinations that a grammar file gives rise to.
-/
import GrammarRecords.Table

namespace GrammarRecords

inductive NodeKind where
  | ruleDefinition
  | ruleReference
  | alternative
  | block
  | zeroOrMore
  | oneOrMore
  | optional
  | terminal
  | other
deriving DecidableEq, Repr

/-- A tree node; the text is a rule name or the text of a literal. -/
inductive Node where
  | mk (kind : NodeKind) (text : Option String) (children : List Node)

namespace Node

def kind : Node → NodeKind
  | .mk kind _ _ => kind

def text : Node → Option String
  | .mk _ text _ => text

def children : Node → List Node
  | .mk _ _ children => children

mutual

private def decideEq : (a b : Node) → Decidable (a = b)
  | .mk k t cs, .mk k' t' cs' =>
      if hk : k = k' then
        if ht : t = t' then
          match decideEqList cs cs' with
          | .isTrue h => .isTrue (by rw [hk, ht, h])
          | .isFalse h => .isFalse (by intro e; injection e; contradiction)
        else .isFalse (by intro e; injection e; contradiction)
      else .isFalse (by intro e; injection e; contradiction)

private def decideEqList : (as bs : List Node) → Decidable (as = bs)
  | [], [] => .isTrue rfl
  | [], _ :: _ => .isFalse (by intro e; cases e)
  | _ :: _, [] => .isFalse (by intro e; cases e)
  | a :: as, b :: bs =>
      match decideEq a b with
      | .isTrue h =>
          match decideEqList as bs with
          | .isTrue h' => .isTrue (by rw [h, h'])
          | .isFalse h' => .isFalse (by intro e; injection e; contradiction)
      | .isFalse h => .isFalse (by intro e; injection e; contradiction)

end

instance : DecidableEq Node := decideEq

instance : Inhabited Node := ⟨.mk .other none []⟩

def ruleDefinition (name : String) : Node := .mk .ruleDefinition (some name) []

def ruleReference (name : String) : Node := .mk .ruleReference (some name) []

def alternative (children : List Node) : Node := .mk .alternative none children

def block (alternatives : List Node) : Node := .mk .block none alternatives

def zeroOrMore (children : List Node) : Node := .mk .zeroOrMore none children

def oneOrMore (children : List Node) : Node := .mk .oneOrMore none children

def optional (children : List Node) : Node := .mk .optional none children

def terminal (text : String) : Node := .mk .terminal (some text) []

def other (children : List Node) : Node := .mk .other none children

end Node

/-- The alternatives of a rule; an absent one stands for nothing to parse. -/
structure RuleBody where
  alternatives : List (Option Node)
deriving DecidableEq, Inhabited

def RuleBody.present (body : RuleBody) : List Node :=
  body.alternatives.filterMap id

structure Grammar where
  name : String
  rules : Table String RuleBody
deriving DecidableEq, Inhabited

namespace Grammar

def named (name : String) : Grammar := ⟨name, .empty⟩

/-- Defines a rule; a second definition replaces the body and keeps the place. -/
def withRule (g : Grammar) (name : String) (body : RuleBody) : Grammar :=
  { g with rules := g.rules.insert name body }

def rule? (g : Grammar) (name : String) : Option RuleBody :=
  g.rules.get? name

end Grammar
end GrammarRecords
