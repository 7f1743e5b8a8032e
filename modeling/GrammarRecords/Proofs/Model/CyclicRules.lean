/-
The cyclic rules of a model.

A rule is cyclic if a chain of names leads from it back to itself, each name
standing somewhere in the shape of the one before.  Where a name stands is told
by `Shape.Mentions`, which knows no order and no list; `mem_references_iff` says
that the references that the search follows are these names.
`cyclicRules_exact` puts the whole search together: it has one answer, after a
bounded number of rounds, and its answers select the rules on a chain in
declaration order.
-/
import GrammarRecords.Proofs.Model.Cycles

namespace GrammarRecords

/-! ## Names in a shape -/

namespace Shape

/-- The rule name stands somewhere in the shape, under any nesting. -/
inductive Mentions (name : String) : Shape → Prop
  | rule : Mentions name (.rule name)
  | part {parts : List Shape} {s : Shape} :
      s ∈ parts → Mentions name s → Mentions name (.sequence parts)
  | option {options : List Shape} {s : Shape} :
      s ∈ options → Mentions name s → Mentions name (.choice options)
  | inner {kind : ContainerKind} {s : Shape} :
      Mentions name s → Mentions name (.container kind s)

mutual

theorem mem_references_iff (name : String) : ∀ s : Shape, name ∈ s.references ↔ s.Mentions name
  | .empty => by
      rw [references]
      exact iff_of_false List.not_mem_nil (fun h => nomatch h)
  | .rule other => by
      rw [references, List.mem_singleton]
      constructor
      · intro h
        rw [h]
        exact .rule
      · intro h
        cases h
        rfl
  | .sequence parts => by
      rw [references, mem_referencesOfMembers_iff name parts]
      constructor
      · intro ⟨s, hs, hname⟩
        exact .part hs hname
      · intro h
        cases h with
        | part hs hname => exact ⟨_, hs, hname⟩
  | .choice options => by
      rw [references, mem_referencesOfMembers_iff name options]
      constructor
      · intro ⟨s, hs, hname⟩
        exact .option hs hname
      · intro h
        cases h with
        | option hs hname => exact ⟨_, hs, hname⟩
  | .container kind s => by
      rw [references, mem_references_iff name s]
      constructor
      · exact .inner
      · intro h
        cases h with
        | inner hname => exact hname

theorem mem_referencesOfMembers_iff (name : String) : ∀ members : List Shape,
    name ∈ referencesOfMembers members ↔ ∃ s ∈ members, s.Mentions name
  | [] => by simp [referencesOfMembers]
  | s :: rest => by
      rw [referencesOfMembers, List.mem_append, mem_references_iff name s,
        mem_referencesOfMembers_iff name rest, List.exists_mem_cons_iff]

end

end Shape

/-! ## Chains of names -/

namespace Model

open Relation

/-- The model has a shape for the rule, and `next` stands in it. -/
def Mentions (m : Model) (rule next : String) : Prop :=
  ∃ shape, m.shape? rule = some shape ∧ shape.Mentions next

theorem refers_eq_mentions (m : Model) : m.Refers = m.Mentions := by
  funext rule next
  refine propext (refers_iff.trans (exists_congr fun shape => ?_))
  rw [shape?, Table.get?_eq_some_iff, Shape.mem_references_iff]

/--
From whatever rule and for whatever target, the search comes to an answer after
at most one round more than there are references, and to no other.  The cyclic
rules are those declared rules, each once and in declaration order, that a
chain of at least one name leads back to.
-/
theorem cyclicRules_exact (m : Model) :
    (∀ source target, ∃ rounds ≤ m.referenceCount + 1, ∀ n answer,
      Answers m target ⟨[], [source]⟩ n answer ↔
        n = rounds ∧ answer = m.reaches source target) ∧
    m.cyclicRules.Sublist m.rules ∧ m.cyclicRules.Nodup ∧
    ∀ rule, rule ∈ m.cyclicRules ↔ rule ∈ m.rules ∧ TransGen m.Mentions rule rule := by
  have hordered : m.cyclicRules.Sublist m.rules := List.filter_sublist
  refine ⟨?_, hordered, m.shapes.nodup.sublist hordered, ?_⟩
  · intro source target
    obtain ⟨rounds, hle, hanswers⟩ := answers_reaches m source target
    refine ⟨rounds, hle, fun n answer => ⟨hanswers.unique, ?_⟩⟩
    rintro ⟨rfl, rfl⟩
    exact hanswers
  · intro rule
    rw [mem_cyclicRules, refers_eq_mentions]

/-- Two cycles that overlap, a rule that refers to itself, one that only leads to a cycle. -/
example : (Model.ofList [("expr", .choice [.rule "call", .rule "NAME"]),
      ("call", .sequence [.rule "expr", .container .list (.rule "arg")]),
      ("arg", .rule "expr"), ("list", .container .optional (.rule "list")),
      ("top", .rule "expr")]).cyclicRules = ["expr", "call", "arg", "list"] := by
  decide

end Model
end GrammarRecords
