/-
Nodes that the shape of a tree does not show.

A place among the children of a node is given by the layers around it, from the
root inwards; `fill` puts nodes there.  A node whose shape is empty can be left out
at any place, and an alternative or a block around a single node as well, whatever
the depth: a layer makes its shape of the informative shapes of its children, so
that lists of children which agree in these (`Alike`) give layers of one shape,
and these are alike again one layer further out.

Any other node is missed where only groups lead to the place, because the references
of a tree are the rule names in it, and there these include the names in the node.
-/
import GrammarRecords.Proofs.Shape.References

namespace GrammarRecords
namespace Node

/-! ## Places -/

/-- A node with a gap among its children. -/
structure Layer where
  kind : NodeKind
  text : Option String
  before : List Node
  after : List Node

def Layer.around (layer : Layer) (ns : List Node) : Node :=
  .mk layer.kind layer.text (layer.before ++ ns ++ layer.after)

/-- The tree that has the nodes in the gap of the innermost layer. -/
def fill : Layer → List Layer → List Node → Node
  | root, [], ns => root.around ns
  | root, next :: inner, ns => root.around [fill next inner ns]

/-- Whether the shape of the root is made of what is in the gap. -/
def isShown (root : Layer) (inner : List Layer) : Bool :=
  (root :: inner).all fun layer => layer.kind.groups

/-! ## Children that are alike -/

/-- Lists of children that no node tells apart. -/
def Alike (ns ms : List Node) : Prop :=
  Shape.informative (shapes ns) = Shape.informative (shapes ms)

theorem Alike.shape_mk {ns ms : List Node} (h : Alike ns ms) (kind : NodeKind)
    (text : Option String) : (mk kind text ns).shape = (mk kind text ms).shape := by
  have hparts : Shape.ofParts (shapes ns) = Shape.ofParts (shapes ms) :=
    congrArg (Shape.gather .sequence) h
  have hoptions : Shape.ofOptions (shapes ns) = Shape.ofOptions (shapes ms) :=
    congrArg (Shape.gather .choice) h
  cases kind with
  | ruleDefinition => rfl
  | ruleReference => rfl
  | alternative => exact hparts
  | block => exact hoptions
  | zeroOrMore => exact congrArg (Shape.wrapped .list) hparts
  | oneOrMore => exact congrArg (Shape.wrapped .nonEmptyList) hparts
  | optional => exact congrArg (Shape.wrapped .optional) hparts
  | terminal => rfl
  | other => rfl

theorem Alike.shape_around {ns ms : List Node} (h : Alike ns ms) (layer : Layer) :
    (layer.around ns).shape = (layer.around ms).shape := by
  have hchildren : Alike (layer.before ++ ns ++ layer.after) (layer.before ++ ms ++ layer.after) := by
    unfold Alike Shape.informative at h ⊢
    simp only [shapes_append, List.filter_append, h]
  exact hchildren.shape_mk layer.kind layer.text

theorem alike_of_shape_eq {n m : Node} (h : n.shape = m.shape) : Alike [n] [m] := by
  show Shape.informative [n.shape] = Shape.informative [m.shape]
  rw [h]

theorem Alike.shape_fill {ns ms : List Node} (h : Alike ns ms) (root : Layer)
    (inner : List Layer) : (fill root inner ns).shape = (fill root inner ms).shape := by
  induction inner generalizing root with
  | nil => exact h.shape_around root
  | cons next inner ih => exact (alike_of_shape_eq (ih next)).shape_around root

/-! ## Redundant nodes -/

theorem alike_nil_of_shape_eq_empty {n : Node} (h : n.shape = .empty) : Alike [n] [] := by
  show Shape.informative [n.shape] = []
  rw [h]
  rfl

theorem shape_alternative_singleton (text : Option String) (n : Node) :
    (mk .alternative text [n]).shape = n.shape :=
  Shape.ofParts_singleton n.shape

theorem shape_block_singleton (text : Option String) (n : Node) :
    (mk .block text [n]).shape = n.shape :=
  Shape.ofOptions_singleton n.shape

theorem shape_around_of_not_groups {layer : Layer} (h : layer.kind.groups = false)
    (ns ms : List Node) : (layer.around ns).shape = (layer.around ms).shape := by
  obtain ⟨kind, text, before, after⟩ := layer
  cases kind with
  | ruleDefinition | ruleReference | terminal | other => rfl
  | alternative | block | zeroOrMore | oneOrMore | optional => exact Bool.noConfusion h

/-- What lies in a gap that is not shown does not matter. -/
theorem shape_fill_of_not_isShown {root : Layer} {inner : List Layer}
    (h : isShown root inner = false) (ns ms : List Node) :
    (fill root inner ns).shape = (fill root inner ms).shape := by
  induction inner generalizing root with
  | nil =>
      rw [isShown, List.all_cons, List.all_nil, Bool.and_true] at h
      exact shape_around_of_not_groups h ns ms
  | cons next inner ih =>
      rcases Bool.and_eq_false_iff.mp h with hroot | hinner
      · exact shape_around_of_not_groups hroot _ _
      · exact (alike_of_shape_eq (ih hinner)).shape_around root

/-- Where groups lead to the gap, the names in it stand between others that stay the same. -/
theorem ruleNames_fill {root : Layer} {inner : List Layer} (h : isShown root inner = true) :
    ∃ before after : List String, ∀ ns : List Node,
      (fill root inner ns).ruleNames = before ++ ns.flatMap ruleNames ++ after := by
  induction inner generalizing root with
  | nil =>
      have hroot : root.kind.groups = true := (Bool.and_eq_true_iff.mp h).1
      refine ⟨root.before.flatMap ruleNames, root.after.flatMap ruleNames, fun ns => ?_⟩
      show (mk _ _ _).ruleNames = _
      rw [ruleNames_of_groups hroot, List.flatMap_append, List.flatMap_append]
  | cons next inner ih =>
      obtain ⟨hroot, hinner⟩ := Bool.and_eq_true_iff.mp h
      obtain ⟨before, after, hnames⟩ := ih hinner
      refine ⟨root.before.flatMap ruleNames ++ before, after ++ root.after.flatMap ruleNames,
        fun ns => ?_⟩
      show (mk _ _ _).ruleNames = _
      rw [ruleNames_of_groups hroot, List.flatMap_append, List.flatMap_append,
        List.flatMap_singleton, hnames]
      simp only [List.append_assoc]

theorem shape_eq_empty_of_fill {root : Layer} {inner : List Layer} {n : Node}
    (hshown : isShown root inner = true)
    (h : (fill root inner [n]).shape = (fill root inner []).shape) : n.shape = .empty := by
  obtain ⟨before, after, hnames⟩ := ruleNames_fill hshown
  have hreferences := congrArg Shape.references h
  -- The names around the gap are the same on both sides, which leaves those of the node.
  rw [references_shape, references_shape, hnames, hnames, List.append_left_inj,
    List.append_right_inj, List.flatMap_singleton] at hreferences
  rw [n.normal_shape.eq_empty_iff, references_shape]
  exact hreferences

/--
Whether a node is there makes no difference exactly if its shape is empty or the
place is not shown, and whether an alternative or a block stands around the node
never makes one.
-/
theorem redundant_nodes_not_shown (root : Layer) (inner : List Layer) (n : Node) :
    ((fill root inner [n]).shape = (fill root inner []).shape ↔
        n.shape = .empty ∨ isShown root inner = false) ∧
      ∀ text : Option String,
        (fill root inner [mk .alternative text [n]]).shape = (fill root inner [n]).shape ∧
          (fill root inner [mk .block text [n]]).shape = (fill root inner [n]).shape := by
  refine ⟨⟨fun h => ?_, ?_⟩, fun text => ⟨?_, ?_⟩⟩
  · cases hshown : isShown root inner with
    | true => exact Or.inl (shape_eq_empty_of_fill hshown h)
    | false => exact Or.inr rfl
  · rintro (hempty | hshown)
    · exact (alike_nil_of_shape_eq_empty hempty).shape_fill root inner
    · exact shape_fill_of_not_isShown hshown [n] []
  · exact (alike_of_shape_eq (shape_alternative_singleton text n)).shape_fill root inner
  · exact (alike_of_shape_eq (shape_block_singleton text n)).shape_fill root inner

end Node
end GrammarRecords
