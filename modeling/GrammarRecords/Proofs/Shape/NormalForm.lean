/-
Shapes in normal form.

In a normal shape every sequence and every choice has at least two members,
none of them empty, and no container holds the empty shape.  The normalizing
constructors keep this, so every shape that synthesis builds is normal at every
depth.  There are no other restrictions: `Shape.node` writes a shape as a tree
with one node for each constructor, and where the shape is normal the
normalizing constructors find nothing to drop in that tree and give the shape
back.  `normal_iff_synthesized` puts both directions together, for trees and for
the models of grammars.
-/
import GrammarRecords.Proofs.Grammar.Reading
import GrammarRecords.Proofs.Table

namespace GrammarRecords

namespace Shape

mutual

def Normal : Shape → Prop
  | .empty => True
  | .rule _ => True
  | .sequence parts => 2 ≤ parts.length ∧ AllInformative parts
  | .choice options => 2 ≤ options.length ∧ AllInformative options
  | .container _ inner => inner ≠ .empty ∧ Normal inner

/-- Every member is normal and none is empty. -/
def AllInformative : List Shape → Prop
  | [] => True
  | s :: rest => (s ≠ .empty ∧ Normal s) ∧ AllInformative rest

end

mutual

private def decideNormal : (s : Shape) → Decidable s.Normal
  | .empty => .isTrue trivial
  | .rule _ => .isTrue trivial
  | .sequence parts => @instDecidableAnd _ _ _ (decideAllInformative parts)
  | .choice options => @instDecidableAnd _ _ _ (decideAllInformative options)
  | .container _ inner => @instDecidableAnd _ _ _ (decideNormal inner)

private def decideAllInformative : (ms : List Shape) → Decidable (AllInformative ms)
  | [] => .isTrue trivial
  | s :: rest =>
      @instDecidableAnd _ _ (@instDecidableAnd _ _ _ (decideNormal s)) (decideAllInformative rest)

end

instance (s : Shape) : Decidable s.Normal := decideNormal s

theorem allInformative_iff {members : List Shape} :
    AllInformative members ↔ ∀ s ∈ members, s ≠ .empty ∧ s.Normal := by
  induction members with
  | nil => exact iff_of_true trivial fun s hs => absurd hs List.not_mem_nil
  | cons s rest ih => rw [AllInformative, ih, List.forall_mem_cons]

theorem isEmpty_iff {s : Shape} : s.isEmpty = true ↔ s = .empty := by
  cases s <;> simp [isEmpty]

theorem mem_informative {members : List Shape} {s : Shape} :
    s ∈ informative members ↔ s ∈ members ∧ s ≠ .empty := by
  rw [informative, List.mem_filter, Bool.not_eq_true', Bool.eq_false_iff, ne_eq, isEmpty_iff]

/-! ## The normalizing constructors -/

section Members

variable {members : List Shape} (h : ∀ s ∈ members, s.Normal)

include h

theorem allInformative_informative : AllInformative (informative members) := by
  rw [allInformative_iff]
  intro s hs
  obtain ⟨hmem, hne⟩ := mem_informative.mp hs
  exact ⟨hne, h s hmem⟩

/-- A lone member is normal by itself; two or more are what `build` needs. -/
theorem normal_gather {build : List Shape → Shape}
    (hbuild : ∀ ms, 2 ≤ ms.length → AllInformative ms → (build ms).Normal) :
    (gather build (informative members)).Normal := by
  have hall := allInformative_informative h
  match informative members, hall with
  | [], _ => exact trivial
  | [s], ⟨⟨_, hs⟩, _⟩ => exact hs
  | s :: t :: rest, hall =>
      refine hbuild (s :: t :: rest) ?_ hall
      rw [List.length_cons, List.length_cons]
      omega

theorem normal_ofParts : (ofParts members).Normal :=
  normal_gather h fun _ hlength hall => ⟨hlength, hall⟩

theorem normal_ofOptions : (ofOptions members).Normal :=
  normal_gather h fun _ hlength hall => ⟨hlength, hall⟩

end Members

theorem normal_wrapped {s : Shape} (h : s.Normal) (kind : ContainerKind) :
    (wrapped kind s).Normal := by
  unfold wrapped
  split
  · exact trivial
  · rename_i hempty
    exact ⟨fun e => hempty (isEmpty_iff.mpr e), h⟩

/-- Two or more informative members are kept as they are. -/
theorem gather_informative_eq (build : List Shape → Shape) {members : List Shape}
    (hlength : 2 ≤ members.length) (hall : AllInformative members) :
    gather build (informative members) = build members := by
  have hkept : informative members = members := by
    refine List.filter_eq_self.mpr fun s hs => ?_
    rw [Bool.not_eq_true', Bool.eq_false_iff, ne_eq, isEmpty_iff]
    exact (allInformative_iff.mp hall s hs).1
  rw [hkept]
  match members, hlength with
  | _ :: _ :: _, _ => rfl

theorem wrapped_of_ne_empty {s : Shape} (h : s ≠ .empty) (kind : ContainerKind) :
    wrapped kind s = .container kind s := by
  rw [wrapped, if_neg (fun e => h (isEmpty_iff.mp e))]

end Shape

/-! ## Shapes of trees -/

namespace Node

open Shape

mutual

theorem normal_shape : ∀ n : Node, n.shape.Normal
  | .mk .ruleDefinition (some _) _ => trivial
  | .mk .ruleDefinition none _ => trivial
  | .mk .ruleReference (some _) _ => trivial
  | .mk .ruleReference none _ => trivial
  | .mk .alternative _ children => normal_ofParts (normal_shapes children)
  | .mk .block _ children => normal_ofOptions (normal_shapes children)
  | .mk .zeroOrMore _ children => normal_wrapped (normal_ofParts (normal_shapes children)) .list
  | .mk .oneOrMore _ children =>
      normal_wrapped (normal_ofParts (normal_shapes children)) .nonEmptyList
  | .mk .optional _ children => normal_wrapped (normal_ofParts (normal_shapes children)) .optional
  | .mk .terminal _ _ => trivial
  | .mk .other _ _ => trivial

theorem normal_shapes : ∀ ns : List Node, ∀ s ∈ shapes ns, s.Normal
  | [] => fun _ hs => absurd hs List.not_mem_nil
  | n :: rest => List.forall_mem_cons.mpr ⟨normal_shape n, normal_shapes rest⟩

end

end Node

/-! ## Trees of shapes -/

def ContainerKind.node : ContainerKind → List Node → Node
  | list => .zeroOrMore
  | nonEmptyList => .oneOrMore
  | optional => .optional

namespace Shape

mutual

/-- One node for each constructor. -/
def node : Shape → Node
  | .empty => .other []
  | .rule name => .ruleReference name
  | .sequence parts => .alternative (nodes parts)
  | .choice options => .block (nodes options)
  | .container kind inner => kind.node [node inner]

def nodes : List Shape → List Node
  | [] => []
  | s :: rest => node s :: nodes rest

end

theorem shape_containerNode (kind : ContainerKind) (n : Node) :
    (kind.node [n]).shape = wrapped kind n.shape := by
  have hpart : ofParts (Node.shapes [n]) = n.shape := ofParts_singleton n.shape
  rw [← hpart]
  cases kind <;> rfl

mutual

theorem shape_node : ∀ {s : Shape}, s.Normal → s.node.shape = s
  | .empty, _ => rfl
  | .rule _, _ => rfl
  | .sequence parts, ⟨hlength, hall⟩ => by
      show ofParts (Node.shapes (nodes parts)) = _
      rw [shapes_nodes hall]
      exact gather_informative_eq .sequence hlength hall
  | .choice options, ⟨hlength, hall⟩ => by
      show ofOptions (Node.shapes (nodes options)) = _
      rw [shapes_nodes hall]
      exact gather_informative_eq .choice hlength hall
  | .container kind inner, ⟨hne, hinner⟩ => by
      rw [node, shape_containerNode, shape_node hinner, wrapped_of_ne_empty hne]

theorem shapes_nodes : ∀ {members : List Shape}, AllInformative members →
    Node.shapes (nodes members) = members
  | [], _ => rfl
  | s :: rest, ⟨⟨_, hs⟩, hrest⟩ => by
      rw [nodes, Node.shapes, shape_node hs, shapes_nodes hrest]

end

end Shape

/-! ## Models -/

/-- The model has the shape of the body of each rule, where there is one. -/
theorem Grammar.mem_entries_model {g : Grammar} {rule : String} {s : Shape} :
    (rule, s) ∈ g.model.shapes.entries ↔
      ∃ body, (rule, body) ∈ g.rules.entries ∧ body.shape? = some s := by
  simp only [Grammar.model, Table.filterMapValues, List.mem_filterMap, Option.map_eq_some_iff,
    Prod.mk.injEq, Prod.exists]
  constructor
  · rintro ⟨_, body, hbody, _, hs, rfl, rfl⟩
    exact ⟨body, hbody, hs⟩
  · rintro ⟨body, hbody, hs⟩
    exact ⟨rule, body, hbody, s, hs, rfl, rfl⟩

theorem RuleBody.shape?_eq_some_iff {body : RuleBody} {s : Shape} :
    body.shape? = some s ↔ body.present ≠ [] ∧ s = .ofOptions (Node.shapes body.present) := by
  unfold RuleBody.shape?
  cases h : body.present with
  | nil => simp
  | cons n rest => simp [eq_comm]

namespace Shape

/--
The normal shapes are those that some tree has, and those that the model of
some grammar holds.
-/
theorem normal_iff_synthesized (s : Shape) :
    (s.Normal ↔ ∃ n : Node, n.shape = s) ∧
      (s.Normal ↔ ∃ g : Grammar, s ∈ g.model.shapes.values) := by
  refine ⟨⟨fun h => ⟨s.node, shape_node h⟩, ?_⟩, fun h => ?_, ?_⟩
  · rintro ⟨n, rfl⟩
    exact n.normal_shape
  · -- One rule with one alternative, which is the tree of the shape.
    let g := (Grammar.named "g").withRule "r" ⟨[some s.node]⟩
    have hshape : RuleBody.shape? ⟨[some s.node]⟩ = some s :=
      congrArg some ((ofOptions_singleton s.node.shape).trans (shape_node h))
    have hentry : ("r", s) ∈ g.model.shapes.entries :=
      Grammar.mem_entries_model.mpr ⟨_, List.mem_singleton_self _, hshape⟩
    exact ⟨g, List.mem_map_of_mem hentry⟩
  · rintro ⟨g, hmem⟩
    obtain ⟨⟨rule, _⟩, hentry, rfl⟩ := List.mem_map.mp hmem
    obtain ⟨body, -, hbody⟩ := Grammar.mem_entries_model.mp hentry
    obtain ⟨-, hs⟩ := RuleBody.shape?_eq_some_iff.mp hbody
    rw [hs]
    exact normal_ofOptions (Node.normal_shapes body.present)

/-- A choice with a part that is left empty is not in normal form. -/
example : (Shape.sequence [.rule "a", .container .list (.rule "b")]).Normal ∧
    ¬ (Shape.choice [.rule "a", .sequence [.rule "b", .empty]]).Normal := by decide

end Shape
end GrammarRecords
