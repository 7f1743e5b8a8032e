/-
The shape of a rule read off its expression.

A rule expression is lowered to a tree, and the tree is synthesized to a shape.
Lowering puts alternatives, blocks and optional blocks between the parts of an
expression, differently at the top of a rule, in a sequence, in a choice and in
a repetition.  The shape of an expression can also be read off directly, by one
recursion that knows none of these layers: `Expression.shape`.  The two agree,
because a product or a sum of one member is that member, so every layer that
lowering adds is dropped again.  `entries_model_ofContents` says so for whole
grammars.
-/
import GrammarRecords.Grammar.File
import GrammarRecords.Model

namespace GrammarRecords

/-! ## The direct reading -/

namespace Expression

mutual

/-- The shape of an expression, by its kind alone. -/
def shape : Expression → Shape
  | blank => .empty
  | string _ => .empty
  | pattern _ => .empty
  | token _ _ => .empty
  | symbol name => .rule name
  | seq members => .ofParts (shapes members)
  | choice members =>
      if members.any isBlank then .wrapped .optional (.ofOptions (optionShapes members))
      else .ofOptions (optionShapes members)
  | repeat0 content => .wrapped .list (shape content)
  | repeat1 content => .wrapped .nonEmptyList (shape content)
  | wrapped _ content => shape content

def shapes : List Expression → List Shape
  | [] => []
  | e :: rest => shape e :: shapes rest

/-- The shapes of the members that are not literally blank. -/
def optionShapes : List Expression → List Shape
  | [] => []
  | e :: rest => if e.isBlank then optionShapes rest else shape e :: optionShapes rest

end

theorem shapes_eq_map (members : List Expression) : shapes members = members.map shape := by
  induction members with
  | nil => rfl
  | cons e rest ih => rw [shapes, ih, List.map_cons]

theorem optionShapes_eq_map (members : List Expression) :
    optionShapes members = (members.filter fun e => !e.isBlank).map shape := by
  induction members with
  | nil => rfl
  | cons e rest ih =>
      cases h : e.isBlank with
      | true => simp [optionShapes, h, ih]
      | false => simp [optionShapes, h, ih]

/-- What is left when the annotations around an expression are taken off. -/
def stripped : Expression → Expression
  | wrapped _ content => stripped content
  | e => e

def hasNoOption (e : Expression) : Bool :=
  match e.stripped with
  | choice [] => true
  | _ => false

end Expression

/-! ## Layers that synthesis drops -/

namespace Shape

theorem gather_informative_singleton (build : List Shape → Shape) (s : Shape) :
    gather build (informative [s]) = s := by
  cases s <;> rfl

theorem ofParts_singleton (s : Shape) : ofParts [s] = s := gather_informative_singleton .sequence s

theorem ofOptions_singleton (s : Shape) : ofOptions [s] = s := gather_informative_singleton .choice s

end Shape

namespace Node

theorem shapes_append (ns ms : List Node) : shapes (ns ++ ms) = shapes ns ++ shapes ms := by
  induction ns with
  | nil => rfl
  | cons n ns ih => rw [List.cons_append, shapes, shapes, ih, List.cons_append]

/-- A block of one alternative is the product of its children. -/
theorem shape_group (ns : List Node) :
    shape (.block [.alternative ns]) = .ofParts (shapes ns) :=
  Shape.ofOptions_singleton _

/-- Grouping what is repeated adds nothing. -/
theorem ofParts_group (ns : List Node) :
    Shape.ofParts (shapes [.block [.alternative ns]]) = .ofParts (shapes ns) := by
  show Shape.ofParts [shape _] = _
  rw [Shape.ofParts_singleton, shape_group]

theorem shape_choiceNode (hasBlank : Bool) (ns : List Node) :
    shape (Expression.choiceNode hasBlank ns) =
      if hasBlank then .wrapped .optional (.ofOptions (shapes ns)) else .ofOptions (shapes ns) := by
  cases hasBlank with
  | false => rfl
  | true =>
      show Shape.wrapped .optional (.ofParts [.ofOptions (shapes ns)]) = _
      rw [Shape.ofParts_singleton]
      rfl

end Node

/-! ## Lowering and synthesis against the direct reading -/

namespace Expression

theorem children_of_not_isSequence : ∀ {e : Expression}, e.isSequence = false →
    ∃ n, children e = [n]
  | blank, _ => ⟨_, rfl⟩
  | string _, _ => ⟨_, rfl⟩
  | pattern _, _ => ⟨_, rfl⟩
  | symbol _, _ => ⟨_, rfl⟩
  | seq _, h => absurd h Bool.true_eq_false.mp
  | choice _, _ => ⟨_, rfl⟩
  | repeat0 _, _ => ⟨_, rfl⟩
  | repeat1 _, _ => ⟨_, rfl⟩
  | token _ _, _ => ⟨_, rfl⟩
  | wrapped _ content, h => by
      have hcontent : content.isSequence = false := h
      rw [children]
      exact children_of_not_isSequence hcontent

/-
One statement for each of the positions in which an expression is lowered: as
the content of an alternative, as a member of a sequence, as an option.  The
first carries the other two, since a list of children counts only through the
product that it becomes.
-/
mutual

theorem ofParts_children : ∀ e : Expression, Shape.ofParts (Node.shapes e.children) = e.shape
  | blank => rfl
  | string _ => rfl
  | pattern _ => rfl
  | symbol _ => rfl
  | token _ _ => rfl
  | seq members => by
      rw [children, shape, shapes_terms members]
  | choice members => by
      rw [children, shape, ← shapes_branches members]
      show Shape.ofParts [Node.shape _] = _
      rw [Shape.ofParts_singleton, Node.shape_choiceNode]
  | repeat0 content => by
      rw [children, shape, ← ofParts_children content]
      show Shape.ofParts [.wrapped .list (.ofParts (Node.shapes [.block [_]]))] = _
      rw [Shape.ofParts_singleton, Node.ofParts_group]
  | repeat1 content => by
      rw [children, shape, ← ofParts_children content]
      show Shape.ofParts [.wrapped .nonEmptyList (.ofParts (Node.shapes [.block [_]]))] = _
      rw [Shape.ofParts_singleton, Node.ofParts_group]
  | wrapped _ content => by
      rw [children, shape, ofParts_children content]

theorem shapes_terms : ∀ members : List Expression, Node.shapes (terms members) = shapes members
  | [] => rfl
  | e :: rest => by
      have he := ofParts_children e
      rw [terms, shapes, Node.shapes_append, shapes_terms rest]
      cases h : e.isSequence with
      | true =>
          show [Node.shape _] ++ _ = _
          rw [Node.shape_group, he, List.singleton_append]
      | false =>
          obtain ⟨n, hn⟩ := children_of_not_isSequence h
          have hshape : Node.shape n = e.shape := by
            rw [hn] at he
            rw [← he]
            exact (Shape.ofParts_singleton _).symm
          show Node.shapes e.children ++ _ = _
          rw [hn, ← hshape]
          rfl

theorem shapes_branches : ∀ members : List Expression,
    Node.shapes (branches members) = optionShapes members
  | [] => rfl
  | e :: rest => by
      rw [branches, optionShapes, ← shapes_branches rest]
      cases h : e.isBlank with
      | true => rfl
      | false =>
          show Shape.ofParts (Node.shapes e.children) :: _ = _
          rw [ofParts_children e]
          rfl

end

theorem branches_of_no_blank : ∀ {members : List Expression}, members.any isBlank = false →
    members ≠ [] → branches members ≠ []
  | [], _, h => absurd rfl h
  | e :: rest, hblank, _ => by
      have he : e.isBlank = false := by
        rw [List.any_cons, Bool.or_eq_false_iff] at hblank
        exact hblank.1
      rw [branches, he]
      exact List.cons_ne_nil _ _

/-- A single alternative is the shape of the rule. -/
theorem shape?_alternative (e : Expression) :
    RuleBody.shape? ⟨[some (alternative e)]⟩ = some e.shape := by
  show some (Shape.ofOptions [Shape.ofParts (Node.shapes e.children)]) = _
  rw [Shape.ofOptions_singleton, ofParts_children]

theorem shape?_branches {members : List Expression} (h : branches members ≠ []) :
    RuleBody.shape? ⟨(branches members).map some⟩ = some (.ofOptions (optionShapes members)) := by
  have hpresent : RuleBody.present ⟨(branches members).map some⟩ = branches members := by
    unfold RuleBody.present
    rw [List.filterMap_map]
    exact List.filterMap_some
  unfold RuleBody.shape?
  rw [hpresent]
  obtain ⟨n, ns, hns⟩ := List.exists_cons_of_ne_nil h
  rw [← shapes_branches, hns]

/-- The body of a rule has the shape of the expression, unless no option is left. -/
theorem shape?_body : ∀ e : Expression,
    (body e).shape? = if e.hasNoOption then none else some e.shape
  | wrapped _ content => shape?_body content
  | choice [] => rfl
  | choice (first :: rest) => by
      show (body (choice (first :: rest))).shape? = some _
      unfold body
      cases hblank : (first :: rest).any isBlank with
      | true => exact shape?_alternative _
      | false =>
          rw [shape, hblank]
          exact shape?_branches (branches_of_no_blank hblank (List.cons_ne_nil first rest))
  | blank => shape?_alternative _
  | string _ => shape?_alternative _
  | pattern _ => shape?_alternative _
  | symbol _ => shape?_alternative _
  | seq _ => shape?_alternative _
  | repeat0 _ => shape?_alternative _
  | repeat1 _ => shape?_alternative _
  | token _ _ => shape?_alternative _

end Expression

/--
The model of a grammar file holds, in declaration order, the rules that are
not an empty choice under their annotations, each with the shape that its
expression reads as.
-/
theorem entries_model_ofContents (contents : GrammarFile.Contents) :
    (Grammar.ofContents contents).model.shapes.entries =
      (contents.2.entries.filter fun rule => !rule.2.hasNoOption).map
        fun rule => (rule.1, rule.2.shape) := by
  show (contents.2.entries.map fun rule => (rule.1, rule.2.body)).filterMap
    (fun rule => rule.2.shape?.map fun s => (rule.1, s)) = _
  induction contents.2.entries with
  | nil => rfl
  | cons rule rest ih =>
      rw [List.map_cons, List.filterMap_cons, ih, List.filter_cons]
      simp only
      rw [Expression.shape?_body]
      cases rule.2.hasNoOption with
      | true => rfl
      | false => rfl

end GrammarRecords
