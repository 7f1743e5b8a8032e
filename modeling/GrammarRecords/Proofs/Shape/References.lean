/-
The rule names in the shape of a tree.

A tree names rules in nodes that may lie below alternatives, blocks and
repetitions; what lies below any other node is no part of the shape.
`Node.reached` lists the nodes that are left, from left to right, and
`Node.ruleNames` the rules that they name.  The normalizing constructors drop
only members without a rule name and never change an order, so the references
of the shape are exactly this list (`references_shape`).  A normal shape without
a reference is empty, hence a shape is empty exactly if its tree names no rule.
-/
import GrammarRecords.Proofs.Shape.NormalForm

namespace GrammarRecords

/-! ## Rule names in a tree -/

/-- Whether the shape of a node is made of the shapes of its children. -/
def NodeKind.groups : NodeKind → Bool
  | alternative | block | zeroOrMore | oneOrMore | optional => true
  | ruleDefinition | ruleReference | terminal | other => false

namespace Node

mutual

/-- The node, and from left to right the nodes below it to which only groups lead. -/
def reached : Node → List Node
  | .mk kind text children =>
      .mk kind text children :: if kind.groups then reachedAll children else []

def reachedAll : List Node → List Node
  | [] => []
  | n :: rest => reached n ++ reachedAll rest

end

def ruleName? (n : Node) : Option String :=
  match n.kind with
  | .ruleDefinition | .ruleReference => n.text
  | _ => none

def ruleNames (n : Node) : List String := n.reached.filterMap ruleName?

theorem filterMap_reachedAll (ns : List Node) :
    (reachedAll ns).filterMap ruleName? = ns.flatMap ruleNames := by
  induction ns with
  | nil => rfl
  | cons n rest ih => rw [reachedAll, List.filterMap_append, ih, List.flatMap_cons, ruleNames]

/-- A group names what its children name. -/
theorem ruleNames_of_groups {kind : NodeKind} (h : kind.groups = true) (text : Option String)
    (children : List Node) :
    (Node.mk kind text children).ruleNames = children.flatMap ruleNames := by
  have hself : ruleName? (.mk kind text children) = none := by
    cases kind with
    | ruleDefinition => exact absurd h Bool.false_ne_true
    | ruleReference => exact absurd h Bool.false_ne_true
    | _ => rfl
  rw [ruleNames, reached, List.filterMap_cons_none hself, if_pos h, filterMap_reachedAll]

end Node

/-! ## References behind the normalizing constructors -/

namespace Shape

/-- The members that are dropped have no references. -/
theorem referencesOfMembers_informative (members : List Shape) :
    referencesOfMembers (informative members) = referencesOfMembers members := by
  induction members with
  | nil => rfl
  | cons s rest ih =>
      rw [referencesOfMembers, ← ih]
      by_cases h : s = .empty
      · rw [h]
        rfl
      · have hkept : informative (s :: rest) = s :: informative rest := by
          refine List.filter_cons_of_pos ?_
          rw [Bool.not_eq_true', Bool.eq_false_iff, ne_eq, isEmpty_iff]
          exact h
        rw [hkept, referencesOfMembers]

theorem references_gather {build : List Shape → Shape}
    (hbuild : ∀ ms, (build ms).references = referencesOfMembers ms)
    (members : List Shape) : (gather build members).references = referencesOfMembers members := by
  cases members with
  | nil => rfl
  | cons s rest =>
      cases rest with
      | nil => exact (List.append_nil s.references).symm
      | cons t rest => exact hbuild (s :: t :: rest)

theorem references_ofParts (parts : List Shape) :
    (ofParts parts).references = parts.flatMap references := by
  rw [ofParts, references_gather fun _ => by rw [references], referencesOfMembers_informative,
    referencesOfMembers_eq_flatMap]

theorem references_ofOptions (options : List Shape) :
    (ofOptions options).references = options.flatMap references := by
  rw [ofOptions, references_gather fun _ => by rw [references], referencesOfMembers_informative,
    referencesOfMembers_eq_flatMap]

theorem references_wrapped (kind : ContainerKind) (s : Shape) :
    (wrapped kind s).references = s.references := by
  by_cases h : s = .empty
  · rw [h]
    rfl
  · rw [wrapped_of_ne_empty h, references]

/-- The first member of a normal sequence or choice is not empty, so it has references itself. -/
theorem references_ne_nil : ∀ {s : Shape}, s.Normal → s ≠ .empty → s.references ≠ []
  | .empty, _, h => absurd rfl h
  | .rule name, _, _ => List.cons_ne_nil name []
  | .sequence [], ⟨hlength, _⟩, _ => absurd hlength (by decide)
  | .sequence (first :: rest), ⟨_, ⟨hne, hfirst⟩, _⟩, _ => by
      rw [references, referencesOfMembers]
      exact List.append_ne_nil_of_left_ne_nil (references_ne_nil hfirst hne) _
  | .choice [], ⟨hlength, _⟩, _ => absurd hlength (by decide)
  | .choice (first :: rest), ⟨_, ⟨hne, hfirst⟩, _⟩, _ => by
      rw [references, referencesOfMembers]
      exact List.append_ne_nil_of_left_ne_nil (references_ne_nil hfirst hne) _
  | .container _ inner, ⟨hne, hinner⟩, _ => by
      rw [references]
      exact references_ne_nil hinner hne

theorem Normal.eq_empty_iff {s : Shape} (h : s.Normal) : s = .empty ↔ s.references = [] := by
  constructor
  · rintro rfl
    rfl
  · intro hnil
    by_contra hne
    exact references_ne_nil h hne hnil

end Shape

/-! ## References of a tree -/

namespace Node

open Shape

mutual

/-- A group passes on the names below it; any other node names one rule or none. -/
theorem references_shape : ∀ n : Node, n.shape.references = n.ruleNames
  | .mk .ruleDefinition (some _) _ => rfl
  | .mk .ruleDefinition none _ => rfl
  | .mk .ruleReference (some _) _ => rfl
  | .mk .ruleReference none _ => rfl
  | .mk .terminal _ _ => rfl
  | .mk .other _ _ => rfl
  | .mk .alternative text children => by
      rw [ruleNames_of_groups rfl, ← flatMap_references_shapes children]
      exact references_ofParts (shapes children)
  | .mk .block text children => by
      rw [ruleNames_of_groups rfl, ← flatMap_references_shapes children]
      exact references_ofOptions (shapes children)
  | .mk .zeroOrMore text children => by
      rw [ruleNames_of_groups rfl, ← flatMap_references_shapes children, ← references_ofParts]
      exact references_wrapped .list _
  | .mk .oneOrMore text children => by
      rw [ruleNames_of_groups rfl, ← flatMap_references_shapes children, ← references_ofParts]
      exact references_wrapped .nonEmptyList _
  | .mk .optional text children => by
      rw [ruleNames_of_groups rfl, ← flatMap_references_shapes children, ← references_ofParts]
      exact references_wrapped .optional _

theorem flatMap_references_shapes : ∀ ns : List Node,
    (shapes ns).flatMap references = ns.flatMap ruleNames
  | [] => rfl
  | n :: rest => by
      rw [shapes, List.flatMap_cons, List.flatMap_cons, references_shape n,
        flatMap_references_shapes rest]

end

/--
The references of a shape are the rule names of its tree, in their order and
number, and only a tree without any has the empty shape.  For a rule the trees
are its present alternatives one after the other.
-/
theorem references_synthesized :
    (∀ n : Node, n.shape.references = n.ruleNames ∧ (n.shape = .empty ↔ n.ruleNames = [])) ∧
    (∀ (g : Grammar) (rule : String) (s : Shape), g.model.shape? rule = some s →
      ∃ body, g.rule? rule = some body ∧ s.references = body.present.flatMap ruleNames ∧
        (s = .empty ↔ body.present.flatMap ruleNames = [])) := by
  constructor
  · intro n
    rw [n.normal_shape.eq_empty_iff, references_shape]
    exact ⟨rfl, Iff.rfl⟩
  · intro g rule s hs
    obtain ⟨body, hbody, hshape⟩ := Grammar.mem_entries_model.mp (Table.get?_eq_some_iff.mp hs)
    obtain ⟨-, rfl⟩ := RuleBody.shape?_eq_some_iff.mp hshape
    have hnormal := normal_ofOptions (normal_shapes body.present)
    refine ⟨body, Table.get?_eq_some_iff.mpr hbody, ?_⟩
    rw [hnormal.eq_empty_iff, references_ofOptions, flatMap_references_shapes]
    exact ⟨rfl, Iff.rfl⟩

/-- Names below an unknown construct and below a reference do not count. -/
def call : Node :=
  .alternative [.mk .ruleReference (some "name") [.ruleReference "inner"], .terminal "(",
    .optional [.block [.alternative [.ruleReference "value", .zeroOrMore [.ruleReference "value"]],
      .alternative [.other [.ruleReference "error"]]]]]

/-- A rule with two alternatives between which one is absent. -/
def statements : Grammar :=
  (Grammar.named "statements").withRule "statement"
    ⟨[some call, none, some (.alternative [.ruleDefinition "block"])]⟩

theorem references_synthesized_statements :
    call.shape.references = ["name", "value", "value"] ∧
      ∃ s, statements.model.shape? "statement" = some s ∧
        s.references = ["name", "value", "value", "block"] := by
  have hs : ∃ s, statements.model.shape? "statement" = some s :=
    Option.isSome_iff_exists.mp (by decide)
  obtain ⟨s, hs⟩ := hs
  obtain ⟨body, hbody, hreferences, -⟩ := references_synthesized.2 statements "statement" s hs
  obtain rfl : _ = body := Option.some.inj hbody
  exact ⟨(references_synthesized.1 call).1, s, hs, hreferences⟩

end Node
end GrammarRecords
