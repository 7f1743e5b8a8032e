/-
The trees that lowering gives.

`Node.WellFormed` says of every node of a tree what its kind allows: groups have
no text, a repetition has one block and nothing else below it, alternatives stand
in blocks only, and the other nodes have no children.  An expression is lowered
in two positions, as the content of an alternative and as the alternative itself,
and the invariant is one about kinds: the children of an alternative are
well-formed and no alternatives (`IsTerm`), the branches of a choice are well-formed
alternatives (`IsBranch`).

There is no other restriction.  `Node.expression` writes a tree as an expression
that is lowered to it, so the well-formed grammars are exactly the lowered ones
(`wellFormed_iff_exists_contents`).
-/
import GrammarRecords.Grammar.File
import GrammarRecords.Proofs.Table

namespace GrammarRecords

namespace Node

/-! ## Well-formed trees -/

/-- The nodes of a tree. -/
inductive Within : Node → Node → Prop where
  | root (n : Node) : Within n n
  | child {m c : Node} {kind : NodeKind} {text : Option String} {children : List Node} :
      c ∈ children → Within m c → Within m (.mk kind text children)

/-- The text and the children that go with the kind of a node. -/
def HasForm : Node → Prop
  | .mk .ruleDefinition _ _ => False
  | .mk .ruleReference text children => text ≠ none ∧ children = []
  | .mk .alternative text _ => text = none
  | .mk .block text _ => text = none
  | .mk .zeroOrMore text children => text = none ∧ ∃ n, children = [.block [n]]
  | .mk .oneOrMore text children => text = none ∧ ∃ n, children = [.block [n]]
  | .mk .optional text children => text = none ∧ ∃ ns, children = [.block ns]
  | .mk .terminal _ children => children = []
  | .mk .other text children => text = none ∧ children = []

/-- What holds of each node: its form, and alternatives in blocks and nowhere else. -/
structure Lawful (n : Node) : Prop where
  form : n.HasForm
  kind_of_child : ∀ c ∈ n.children, (c.kind = .alternative ↔ n.kind = .block)

def WellFormed (n : Node) : Prop := ∀ m, Within m n → m.Lawful

theorem wellFormed_mk_iff {kind : NodeKind} {text : Option String} {children : List Node} :
    (mk kind text children).WellFormed ↔
      (mk kind text children).Lawful ∧ ∀ c ∈ children, c.WellFormed := by
  constructor
  · intro h
    exact ⟨h _ (.root _), fun c hc m hm => h m (.child hc hm)⟩
  · rintro ⟨hroot, hbelow⟩ m hm
    cases hm with
    | root => exact hroot
    | child hc hm => exact hbelow _ hc m hm

theorem wellFormed_leaf {kind : NodeKind} {text : Option String} (h : (mk kind text []).HasForm) :
    (mk kind text []).WellFormed :=
  wellFormed_mk_iff.mpr ⟨⟨h, fun _ hc => nomatch hc⟩, fun _ hc => nomatch hc⟩

/-- What stands in an alternative. -/
def IsTerm (n : Node) : Prop := n.WellFormed ∧ n.kind ≠ .alternative

/-- What stands in a block. -/
def IsBranch (n : Node) : Prop := n.WellFormed ∧ n.kind = .alternative

theorem isBranch_alternative {ns : List Node} (h : ∀ n ∈ ns, n.IsTerm) :
    (alternative ns).IsBranch := by
  refine ⟨wellFormed_mk_iff.mpr ⟨⟨rfl, fun c hc => ?_⟩, fun c hc => (h c hc).1⟩, rfl⟩
  exact iff_of_false (h c hc).2 NodeKind.noConfusion

theorem isTerm_block {ns : List Node} (h : ∀ n ∈ ns, n.IsBranch) : (block ns).IsTerm := by
  refine ⟨wellFormed_mk_iff.mpr ⟨⟨rfl, fun c hc => ?_⟩, fun c hc => (h c hc).1⟩,
    NodeKind.noConfusion⟩
  exact iff_of_true (h c hc).2 rfl

/-- What a sequence becomes where a single node is needed. -/
theorem isTerm_group {ns : List Node} (h : ∀ n ∈ ns, n.IsTerm) :
    (block [alternative ns]).IsTerm :=
  isTerm_block (List.forall_mem_singleton.mpr (isBranch_alternative h))

/-- A single block is what a repetition and an option are made of. -/
theorem isTerm_of_block {kind : NodeKind} {b : Node} (hform : (mk kind none [b]).HasForm)
    (hkind : kind ≠ .block) (halternative : kind ≠ .alternative) (hb : b.IsTerm) :
    (mk kind none [b]).IsTerm := by
  refine ⟨wellFormed_mk_iff.mpr ⟨⟨hform, ?_⟩, ?_⟩, halternative⟩
  · intro c hc
    rw [List.mem_singleton.mp hc]
    exact iff_of_false hb.2 hkind
  · intro c hc
    rw [List.mem_singleton.mp hc]
    exact hb.1

end Node

/-- Every alternative is present. -/
def RuleBody.WellFormed (body : RuleBody) : Prop :=
  ∀ a ∈ body.alternatives, ∃ n, a = some n ∧ n.IsBranch

def Grammar.WellFormed (g : Grammar) : Prop :=
  ∀ rule ∈ g.rules.entries, rule.2.WellFormed

/-! ## Lowered trees are well-formed -/

namespace Expression

open Node

theorem isTerm_choiceNode {ns : List Node} (hasBlank : Bool) (h : ∀ n ∈ ns, n.IsBranch) :
    (choiceNode hasBlank ns).IsTerm := by
  have hblock := isTerm_block h
  cases hasBlank with
  | false => exact hblock
  | true =>
      exact isTerm_of_block ⟨rfl, ns, rfl⟩ NodeKind.noConfusion NodeKind.noConfusion hblock

mutual

theorem isTerm_of_mem_children : ∀ e : Expression, ∀ n ∈ children e, n.IsTerm
  | blank => List.forall_mem_singleton.mpr ⟨wellFormed_leaf ⟨rfl, rfl⟩, NodeKind.noConfusion⟩
  | string _ => List.forall_mem_singleton.mpr ⟨wellFormed_leaf rfl, NodeKind.noConfusion⟩
  | pattern _ => List.forall_mem_singleton.mpr ⟨wellFormed_leaf rfl, NodeKind.noConfusion⟩
  | symbol _ =>
      List.forall_mem_singleton.mpr
        ⟨wellFormed_leaf ⟨Option.some_ne_none _, rfl⟩, NodeKind.noConfusion⟩
  | token _ _ => List.forall_mem_singleton.mpr ⟨wellFormed_leaf rfl, NodeKind.noConfusion⟩
  | seq members => isTerm_of_mem_terms members
  | choice members =>
      List.forall_mem_singleton.mpr (isTerm_choiceNode _ (isBranch_of_mem_branches members))
  | repeat0 content => by
      have hgroup := isTerm_group (isTerm_of_mem_children content)
      exact List.forall_mem_singleton.mpr
        (isTerm_of_block ⟨rfl, _, rfl⟩ NodeKind.noConfusion NodeKind.noConfusion hgroup)
  | repeat1 content => by
      have hgroup := isTerm_group (isTerm_of_mem_children content)
      exact List.forall_mem_singleton.mpr
        (isTerm_of_block ⟨rfl, _, rfl⟩ NodeKind.noConfusion NodeKind.noConfusion hgroup)
  | wrapped _ content => isTerm_of_mem_children content

theorem isTerm_of_mem_terms : ∀ members : List Expression, ∀ n ∈ terms members, n.IsTerm
  | [] => fun _ hn => nomatch hn
  | e :: rest => by
      have he := isTerm_of_mem_children e
      rw [terms]
      refine List.forall_mem_append.mpr ⟨?_, isTerm_of_mem_terms rest⟩
      split
      · exact List.forall_mem_singleton.mpr (isTerm_group he)
      · exact he

theorem isBranch_of_mem_branches : ∀ members : List Expression,
    ∀ n ∈ branches members, n.IsBranch
  | [] => fun _ hn => nomatch hn
  | e :: rest => by
      have hrest := isBranch_of_mem_branches rest
      rw [branches]
      split
      · exact hrest
      · exact List.forall_mem_cons.mpr ⟨isBranch_alternative (isTerm_of_mem_children e), hrest⟩

end

theorem wellFormed_alternative (e : Expression) :
    RuleBody.WellFormed ⟨[some (alternative e)]⟩ :=
  List.forall_mem_singleton.mpr ⟨_, rfl, isBranch_alternative (isTerm_of_mem_children e)⟩

theorem wellFormed_body : ∀ e : Expression, e.body.WellFormed
  | blank => wellFormed_alternative _
  | string _ => wellFormed_alternative _
  | pattern _ => wellFormed_alternative _
  | symbol _ => wellFormed_alternative _
  | seq _ => wellFormed_alternative _
  | repeat0 _ => wellFormed_alternative _
  | repeat1 _ => wellFormed_alternative _
  | token _ _ => wellFormed_alternative _
  | wrapped _ content => wellFormed_body content
  | choice members => by
      rw [body]
      split
      · exact wellFormed_alternative (choice members)
      · intro a ha
        obtain ⟨n, hn, rfl⟩ := List.mem_map.mp ha
        exact ⟨n, rfl, isBranch_of_mem_branches members n hn⟩

end Expression

/-! ## Well-formed trees are lowered -/

namespace Node

mutual

/-- An expression that is lowered to the node, if the node is well-formed. -/
def expression : Node → Expression
  | .mk kind text children =>
      match kind with
      | .ruleReference => .symbol (text.getD "")
      | .terminal =>
          match text with
          | some value => .string value
          | none => .token .plain .blank
      | .alternative => .seq (expressions children)
      | .block => .choice (expressions children)
      | .zeroOrMore =>
          match expressions children with
          | [.choice [content]] => .repeat0 content
          | _ => .blank
      | .oneOrMore =>
          match expressions children with
          | [.choice [content]] => .repeat1 content
          | _ => .blank
      | .optional =>
          match expressions children with
          | [.choice options] => .choice (.blank :: options)
          | _ => .blank
      | .ruleDefinition | .other => .blank

def expressions : List Node → List Expression
  | [] => []
  | n :: rest => expression n :: expressions rest

end

/-- The expression of a node is lowered to it, in the position that the node stands in. -/
def Lowers (n : Node) : Prop :=
  (n.IsTerm → n.expression.children = [n] ∧ n.expression.isSequence = false) ∧
    (n.IsBranch → n.expression.alternative = n ∧ n.expression.isBlank = false)

theorem terms_expressions {ns : List Node} (hns : ∀ n ∈ ns, n.Lowers)
    (hterms : ∀ n ∈ ns, n.IsTerm) : Expression.terms (expressions ns) = ns := by
  induction ns with
  | nil => rfl
  | cons n rest ih =>
      obtain ⟨hn, hrest⟩ := List.forall_mem_cons.mp hns
      obtain ⟨hterm, hterms⟩ := List.forall_mem_cons.mp hterms
      obtain ⟨hchildren, hsequence⟩ := hn.1 hterm
      rw [expressions, Expression.terms, hsequence, hchildren, ih hrest hterms]
      rfl

theorem branches_expressions {ns : List Node} (hns : ∀ n ∈ ns, n.Lowers)
    (hbranches : ∀ n ∈ ns, n.IsBranch) :
    Expression.branches (expressions ns) = ns ∧
      (expressions ns).any Expression.isBlank = false := by
  induction ns with
  | nil => exact ⟨rfl, rfl⟩
  | cons n rest ih =>
      obtain ⟨hn, hrest⟩ := List.forall_mem_cons.mp hns
      obtain ⟨hbranch, hbranches⟩ := List.forall_mem_cons.mp hbranches
      obtain ⟨halternative, hblank⟩ := hn.2 hbranch
      obtain ⟨hlowered, hblanks⟩ := ih hrest hbranches
      constructor
      · rw [expressions, Expression.branches, hblank, hlowered]
        exact congrArg (· :: rest) halternative
      · rw [expressions, List.any_cons, hblank, hblanks]
        rfl

/-- The expression of a block is a choice, without a blank option, of what is in the block. -/
theorem Lowers.branches {ns : List Node} (h : (block ns).Lowers) (hterm : (block ns).IsTerm) :
    Expression.branches (expressions ns) = ns ∧
      (expressions ns).any Expression.isBlank = false := by
  have hchildren : [Expression.choiceNode ((expressions ns).any Expression.isBlank)
      (Expression.branches (expressions ns))] = [block ns] := (h.1 hterm).1
  cases hblank : (expressions ns).any Expression.isBlank with
  | true =>
      rw [hblank] at hchildren
      exact absurd (congrArg kind (List.cons.inj hchildren).1) NodeKind.noConfusion
  | false =>
      rw [hblank] at hchildren
      exact ⟨congrArg Node.children (List.cons.inj hchildren).1, rfl⟩

theorem isTerm_of_mem_alternative {text : Option String} {ns : List Node}
    (h : (mk .alternative text ns).WellFormed) : ∀ n ∈ ns, n.IsTerm := by
  obtain ⟨hlawful, hbelow⟩ := wellFormed_mk_iff.mp h
  intro n hn
  exact ⟨hbelow n hn, fun hkind => NodeKind.noConfusion ((hlawful.kind_of_child n hn).mp hkind)⟩

theorem isBranch_of_mem_block {text : Option String} {ns : List Node}
    (h : (mk .block text ns).WellFormed) : ∀ n ∈ ns, n.IsBranch := by
  obtain ⟨hlawful, hbelow⟩ := wellFormed_mk_iff.mp h
  intro n hn
  exact ⟨hbelow n hn, (hlawful.kind_of_child n hn).mpr rfl⟩

/-- A repetition is lowered from one of the expression in its block. -/
theorem alternative_of_lowers_block {n : Node} (h : (block [n]).Lowers)
    (hterm : (block [n]).IsTerm) : n.expression.alternative = n := by
  obtain ⟨hbranches, hblank⟩ := h.branches hterm
  have hn : n.expression.isBlank = false := (Bool.or_eq_false_iff.mp hblank).1
  rw [expressions, expressions, Expression.branches, hn] at hbranches
  exact (List.cons.inj hbranches).1

theorem lowers_mk {kind : NodeKind} {text : Option String} {children : List Node}
    (ih : ∀ c ∈ children, c.Lowers) : (mk kind text children).Lowers := by
  constructor
  · rintro ⟨hwell, hkind⟩
    obtain ⟨⟨hform, -⟩, hbelow⟩ := wellFormed_mk_iff.mp hwell
    -- Repetitions and options are built from the expression of the block below them.
    have hblock : ∀ ns, children = [block ns] → (block ns).Lowers ∧ (block ns).IsTerm := by
      rintro ns rfl
      exact ⟨ih _ List.mem_cons_self, hbelow _ List.mem_cons_self, NodeKind.noConfusion⟩
    cases kind with
    | ruleDefinition => exact absurd hform id
    | ruleReference =>
        obtain ⟨htext, rfl⟩ := hform
        obtain ⟨name, rfl⟩ := Option.ne_none_iff_exists'.mp htext
        exact ⟨rfl, rfl⟩
    | alternative => exact absurd rfl hkind
    | block =>
        obtain rfl : text = none := hform
        obtain ⟨hbranches, hblank⟩ := branches_expressions ih (isBranch_of_mem_block hwell)
        refine ⟨?_, rfl⟩
        show [Expression.choiceNode _ _] = _
        rw [hblank, hbranches]
        rfl
    | zeroOrMore =>
        obtain ⟨rfl, n, rfl⟩ := hform
        obtain ⟨hlowers, hterm⟩ := hblock [n] rfl
        refine ⟨?_, rfl⟩
        show [Node.zeroOrMore [.block [n.expression.alternative]]] = _
        rw [alternative_of_lowers_block hlowers hterm]
        rfl
    | oneOrMore =>
        obtain ⟨rfl, n, rfl⟩ := hform
        obtain ⟨hlowers, hterm⟩ := hblock [n] rfl
        refine ⟨?_, rfl⟩
        show [Node.oneOrMore [.block [n.expression.alternative]]] = _
        rw [alternative_of_lowers_block hlowers hterm]
        rfl
    | optional =>
        obtain ⟨rfl, ns, rfl⟩ := hform
        obtain ⟨hlowers, hterm⟩ := hblock ns rfl
        refine ⟨?_, rfl⟩
        show [Node.optional [.block (Expression.branches (expressions ns))]] = _
        rw [(hlowers.branches hterm).1]
        rfl
    | terminal =>
        obtain rfl : children = [] := hform
        cases text with
        | none => exact ⟨rfl, rfl⟩
        | some value => exact ⟨rfl, rfl⟩
    | other =>
        obtain ⟨rfl, rfl⟩ := hform
        exact ⟨rfl, rfl⟩
  · rintro ⟨hwell, hkind⟩
    obtain rfl : kind = .alternative := hkind
    obtain ⟨⟨hform, -⟩, -⟩ := wellFormed_mk_iff.mp hwell
    obtain rfl : text = none := hform
    refine ⟨?_, rfl⟩
    show Node.alternative (Expression.terms (expressions children)) = _
    rw [terms_expressions ih (isTerm_of_mem_alternative hwell)]
    rfl

mutual

theorem lowers : ∀ n : Node, n.Lowers
  | .mk _ _ children => lowers_mk (lowers_of_mem children)

theorem lowers_of_mem : ∀ ns : List Node, ∀ n ∈ ns, n.Lowers
  | [] => fun _ hn => nomatch hn
  | n :: rest => List.forall_mem_cons.mpr ⟨lowers n, lowers_of_mem rest⟩

end

end Node

/-! ## Rules and grammars -/

namespace RuleBody

/-- A choice of the alternatives that are there. -/
def expression (body : RuleBody) : Expression :=
  .choice (Node.expressions body.present)

theorem alternatives_eq_map_present {body : RuleBody} (h : body.WellFormed) :
    body.alternatives = body.present.map some := by
  obtain ⟨alternatives⟩ := body
  unfold present
  induction alternatives with
  | nil => rfl
  | cons a rest ih =>
      obtain ⟨⟨n, rfl, -⟩, hrest⟩ := List.forall_mem_cons.mp h
      exact congrArg (some n :: ·) (ih hrest)

theorem isBranch_of_mem_present {body : RuleBody} (h : body.WellFormed) :
    ∀ n ∈ body.present, n.IsBranch := by
  intro n hn
  obtain ⟨a, ha, hn⟩ := List.mem_filterMap.mp hn
  obtain ⟨m, rfl, hbranch⟩ := h a ha
  obtain rfl : m = n := Option.some.inj hn
  exact hbranch

theorem body_expression {body : RuleBody} (h : body.WellFormed) : body.expression.body = body := by
  obtain ⟨hbranches, hblank⟩ := Node.branches_expressions
    (Node.lowers_of_mem body.present) (isBranch_of_mem_present h)
  rw [expression, Expression.body, hblank, if_neg Bool.false_ne_true, hbranches,
    ← alternatives_eq_map_present h]

end RuleBody

namespace Grammar

/--
The grammars that lowering gives are the well-formed ones: every alternative of a
rule is present and is an alternative by its kind, and every node in it is lawful.
-/
theorem wellFormed_iff_exists_contents (g : Grammar) :
    g.WellFormed ↔ ∃ contents, ofContents contents = g := by
  constructor
  · intro h
    refine ⟨(g.name, g.rules.mapValues RuleBody.expression), ?_⟩
    have hrules : (g.rules.mapValues RuleBody.expression).mapValues Expression.body = g.rules := by
      apply Table.ext_entries
      show (g.rules.entries.map _).map _ = _
      rw [List.map_map]
      refine (List.map_congr_left fun rule hrule => ?_).trans (List.map_id _)
      exact congrArg (Prod.mk rule.1) (RuleBody.body_expression (h rule hrule))
    exact congrArg (Grammar.mk g.name) hrules
  · rintro ⟨contents, rfl⟩ rule hrule
    obtain ⟨raw, -, rfl⟩ := List.mem_map.mp hrule
    exact raw.2.wellFormed_body

end Grammar
end GrammarRecords
