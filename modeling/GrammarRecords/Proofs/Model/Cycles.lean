/-
The search for cycles ends by itself and finds exactly the cycles.

The search stops as soon as the target is among the references of a rule that
it follows.  Until then it keeps the invariant `Explores`: what is pending is
reached from the source, and of every rule met, or of the source, either the
rule is still pending or all it refers to is met.  When nothing is pending any
more, the rules met are closed under references and the target is not one of
them, so it is out of reach.

`Answers` is the search with nothing that bounds its rounds.  A rule is met once
and every rule met is among the references of the model, undeclared rules among
them, so the number of references bounds how often a rule is taken up; the fuel
is that number and a little more and never decides an answer.  `mem_cyclicRules`
states the outcome without the search.
-/
import GrammarRecords.Model
import GrammarRecords.Proofs.Table
import Mathlib.Logic.Relation

namespace GrammarRecords
namespace Model

open Relation

/-- The rule is declared, and `next` occurs in its shape. -/
def Refers (m : Model) (rule next : String) : Prop :=
  next ∈ m.referencesOf rule

theorem refers_iff {m : Model} {rule next : String} :
    m.Refers rule next ↔ ∃ shape, (rule, shape) ∈ m.shapes.entries ∧ next ∈ shape.references := by
  unfold Refers referencesOf shape?
  cases h : m.shapes.get? rule with
  | none =>
      simp only [List.not_mem_nil, false_iff, not_exists, not_and]
      intro shape hshape
      rw [← Table.get?_eq_some_iff, h] at hshape
      exact absurd hshape (by simp)
  | some shape =>
      constructor
      · intro hnext
        exact ⟨shape, Table.get?_eq_some_iff.mp h, hnext⟩
      · rintro ⟨other, hother, hnext⟩
        rw [← Table.get?_eq_some_iff, h] at hother
        rw [Option.some.inj hother]
        exact hnext

/-! ## Meeting rules -/

namespace Frontier

theorem meet_cons (f : Frontier) (rule : String) (rest : List String) :
    f.meet (rule :: rest) =
      if rule ∈ f.met then f.meet rest
      else meet ⟨rule :: f.met, rule :: f.pending⟩ rest := rfl

@[simp] theorem mem_met_meet {f : Frontier} {rules : List String} {x : String} :
    x ∈ (f.meet rules).met ↔ x ∈ f.met ∨ x ∈ rules := by
  induction rules generalizing f with
  | nil => simp [meet]
  | cons rule rest ih =>
      rw [meet_cons]
      by_cases h : rule ∈ f.met
      · rw [if_pos h, ih, List.mem_cons]
        constructor
        · exact Or.imp_right Or.inr
        · rintro (hx | rfl | hx)
          · exact Or.inl hx
          · exact Or.inl h
          · exact Or.inr hx
      · rw [if_neg h, ih, List.mem_cons, List.mem_cons]
        exact or_assoc.trans or_left_comm

theorem mem_pending_meet {f : Frontier} {rules : List String} {x : String} :
    x ∈ (f.meet rules).pending ↔ x ∈ f.pending ∨ (x ∈ rules ∧ x ∉ f.met) := by
  induction rules generalizing f with
  | nil => simp [meet]
  | cons rule rest ih =>
      rw [meet_cons]
      by_cases h : rule ∈ f.met
      · rw [if_pos h, ih, List.mem_cons]
        constructor
        · rintro (hx | ⟨hx, hout⟩)
          · exact Or.inl hx
          · exact Or.inr ⟨Or.inr hx, hout⟩
        · rintro (hx | ⟨rfl | hx, hout⟩)
          · exact Or.inl hx
          · exact absurd h hout
          · exact Or.inr ⟨hx, hout⟩
      · rw [if_neg h, ih, List.mem_cons, List.mem_cons, List.mem_cons, not_or]
        by_cases e : x = rule
        · subst e
          simp [h]
        · simp [e]

theorem nodup_met_meet {f : Frontier} (h : f.met.Nodup) (rules : List String) :
    (f.meet rules).met.Nodup := by
  induction rules generalizing f with
  | nil => exact h
  | cons rule rest ih =>
      rw [meet_cons]
      by_cases hrule : rule ∈ f.met
      · rw [if_pos hrule]
        exact ih h
      · rw [if_neg hrule]
        exact ih (List.nodup_cons.mpr ⟨hrule, h⟩)

/-- Both lists grow by the same number of rules. -/
theorem length_meet (f : Frontier) (rules : List String) :
    (f.meet rules).pending.length + f.met.length =
      f.pending.length + (f.meet rules).met.length := by
  induction rules generalizing f with
  | nil => rfl
  | cons rule rest ih =>
      rw [meet_cons]
      by_cases h : rule ∈ f.met
      · rw [if_pos h]
        exact ih f
      · rw [if_neg h]
        have hrest := ih ⟨rule :: f.met, rule :: f.pending⟩
        simp only [List.length_cons] at hrest
        omega

end Frontier

/-! ## The search -/

/-- All references of the model, with repetitions. -/
def allReferences (m : Model) : List String :=
  m.shapes.values.flatMap Shape.references

theorem length_allReferences (m : Model) : m.allReferences.length = m.referenceCount := by
  unfold allReferences referenceCount
  induction m.shapes.values with
  | nil => rfl
  | cons shape rest ih => rw [List.flatMap_cons, List.length_append, List.foldr_cons, ih]

theorem mem_allReferences_of_refers {m : Model} {rule next : String} (h : m.Refers rule next) :
    next ∈ m.allReferences := by
  obtain ⟨shape, hshape, hnext⟩ := refers_iff.mp h
  exact List.mem_flatMap.mpr ⟨shape, List.mem_map_of_mem hshape, hnext⟩

/-- What holds of a search from `source` that has not come upon `target` yet. -/
structure Explores (m : Model) (source target : String) (f : Frontier) : Prop where
  met_nodup : f.met.Nodup
  met_referenced : f.met ⊆ m.allReferences
  target_unmet : target ∉ f.met
  pending_reached : ∀ rule ∈ f.pending, ReflTransGen m.Refers source rule
  pending_or_followed : ∀ rule, rule = source ∨ rule ∈ f.met →
    rule ∈ f.pending ∨ ∀ next, m.Refers rule next → next ∈ f.met

namespace Explores

variable {m : Model} {source target : String}

theorem start (m : Model) (source target : String) : Explores m source target ⟨[], [source]⟩ where
  met_nodup := List.nodup_nil
  met_referenced := List.nil_subset _
  target_unmet := List.not_mem_nil
  pending_reached := by
    intro rule hrule
    rw [List.mem_singleton.mp hrule]
  pending_or_followed := by
    rintro rule (rfl | hmet)
    · exact Or.inl (List.mem_singleton_self rule)
    · exact absurd hmet List.not_mem_nil

/-- Following one pending rule that does not refer to the target. -/
theorem follow {met rest : List String} {rule : String}
    (h : Explores m source target ⟨met, rule :: rest⟩) (hmiss : ¬ m.Refers rule target) :
    Explores m source target (Frontier.meet ⟨met, rest⟩ (m.referencesOf rule)) where
  met_nodup := Frontier.nodup_met_meet (f := ⟨met, rest⟩) h.met_nodup _
  met_referenced := by
    intro x hx
    rcases Frontier.mem_met_meet.mp hx with hold | hnew
    · exact h.met_referenced hold
    · exact mem_allReferences_of_refers hnew
  target_unmet := by
    intro hx
    rcases Frontier.mem_met_meet.mp hx with hold | hnew
    · exact h.target_unmet hold
    · exact hmiss hnew
  pending_reached := by
    intro x hx
    rcases Frontier.mem_pending_meet.mp hx with hold | ⟨hnew, -⟩
    · exact h.pending_reached x (List.mem_cons_of_mem rule hold)
    · exact (h.pending_reached rule List.mem_cons_self).tail hnew
  pending_or_followed := by
    intro x hx
    by_cases hold : x = source ∨ x ∈ met
    · rcases h.pending_or_followed x hold with hpending | hfollowed
      · rcases List.mem_cons.mp hpending with rfl | hrest
        · exact Or.inr fun next hnext => Frontier.mem_met_meet.mpr (Or.inr hnext)
        · exact Or.inl (Frontier.mem_pending_meet.mpr (Or.inl hrest))
      · exact Or.inr fun next hnext => Frontier.mem_met_meet.mpr (Or.inl (hfollowed next hnext))
    · rw [not_or] at hold
      have hnew : x ∈ m.referencesOf rule := by
        rcases hx with hsource | hmet
        · exact absurd hsource hold.1
        · exact (Frontier.mem_met_meet.mp hmet).resolve_left hold.2
      exact Or.inl (Frontier.mem_pending_meet.mpr (Or.inr ⟨hnew, hold.2⟩))

/-- With nothing pending, whatever the source reaches is met, which the target is not. -/
theorem unreachable {met : List String} (h : Explores m source target ⟨met, []⟩) :
    ¬ TransGen m.Refers source target := by
  have hclosed : ∀ rule, rule = source ∨ rule ∈ met → ∀ next, m.Refers rule next → next ∈ met :=
    fun rule hrule => (h.pending_or_followed rule hrule).resolve_left List.not_mem_nil
  have hmet : ∀ rule, TransGen m.Refers source rule → rule ∈ met := by
    intro rule hreach
    induction hreach with
    | single hfirst => exact hclosed source (Or.inl rfl) _ hfirst
    | tail _ hnext ih => exact hclosed _ (Or.inr ih) _ hnext
  exact fun hreach => h.target_unmet (hmet target hreach)

theorem length_met_le {f : Frontier} (h : Explores m source target f) :
    f.met.length ≤ m.referenceCount := by
  rw [← length_allReferences]
  exact h.met_nodup.length_le_of_subset h.met_referenced

end Explores

/-! ## Rounds of the search -/

/--
From a frontier the search has an answer after so many rounds.  Nothing bounds
the rounds here.
-/
inductive Answers (m : Model) (target : String) : Frontier → Nat → Bool → Prop
  | exhausted {met : List String} : Answers m target ⟨met, []⟩ 0 false
  | found {met rest : List String} {rule : String} :
      m.Refers rule target → Answers m target ⟨met, rule :: rest⟩ 1 true
  | follow {met rest : List String} {rule : String} {rounds : Nat} {answer : Bool} :
      ¬ m.Refers rule target →
      Answers m target (Frontier.meet ⟨met, rest⟩ (m.referencesOf rule)) rounds answer →
      Answers m target ⟨met, rule :: rest⟩ (rounds + 1) answer

namespace Answers

variable {m : Model} {source target : String}

/-- A frontier leaves the search no choice. -/
theorem unique {f : Frontier} {rounds rounds' : Nat} {answer answer' : Bool}
    (h : Answers m target f rounds answer) (h' : Answers m target f rounds' answer') :
    rounds' = rounds ∧ answer' = answer := by
  induction h generalizing rounds' answer' with
  | exhausted =>
      cases h'
      exact ⟨rfl, rfl⟩
  | found hfound =>
      cases h' with
      | found _ => exact ⟨rfl, rfl⟩
      | follow hmiss _ => exact absurd hfound hmiss
  | follow hmiss _ ih =>
      cases h' with
      | found hfound => exact absurd hfound hmiss
      | follow _ hrest =>
          obtain ⟨rfl, rfl⟩ := ih hrest
          exact ⟨rfl, rfl⟩

/-- The answer says whether the target is in reach. -/
theorem iff_transGen {f : Frontier} {rounds : Nat} {answer : Bool}
    (h : Answers m target f rounds answer) (hf : Explores m source target f) :
    answer = true ↔ TransGen m.Refers source target := by
  induction h with
  | exhausted => exact iff_of_false Bool.false_ne_true hf.unreachable
  | found hfound =>
      exact iff_of_true rfl (TransGen.tail' (hf.pending_reached _ List.mem_cons_self) hfound)
  | follow hmiss _ ih => exact ih (hf.follow hmiss)

/-- Fuel for more rounds than there are is not used up. -/
theorem searchFrom_eq {f : Frontier} {rounds fuel : Nat} {answer : Bool}
    (h : Answers m target f rounds answer) (hfuel : rounds < fuel) :
    m.searchFrom target fuel f = answer := by
  induction h generalizing fuel with
  | exhausted =>
      obtain ⟨fuel, rfl⟩ := Nat.exists_eq_succ_of_ne_zero (Nat.ne_of_gt hfuel)
      rfl
  | @found met rest rule hfound =>
      obtain ⟨fuel, rfl⟩ := Nat.exists_eq_succ_of_ne_zero (Nat.ne_zero_of_lt hfuel)
      exact if_pos hfound
  | @follow met rest rule rounds answer hmiss _ ih =>
      obtain ⟨fuel, rfl⟩ := Nat.exists_eq_succ_of_ne_zero (Nat.ne_zero_of_lt hfuel)
      have hstep : m.searchFrom target (fuel + 1) ⟨met, rule :: rest⟩ =
          m.searchFrom target fuel (Frontier.meet ⟨met, rest⟩ (m.referencesOf rule)) :=
        if_neg hmiss
      rw [hstep]
      exact ih (Nat.lt_of_succ_lt_succ hfuel)

end Answers

/-- Each round takes up one pending rule, and only as many are pending as are met. -/
theorem Explores.exists_answers {m : Model} {source target : String} {f : Frontier}
    (h : Explores m source target f) :
    ∃ rounds answer, Answers m target f rounds answer ∧
      rounds + f.met.length ≤ f.pending.length + m.referenceCount := by
  induction hleft : f.pending.length + m.referenceCount - f.met.length using Nat.strongRecOn
    generalizing f with
  | ind left ih =>
      have hmet := h.length_met_le
      obtain ⟨met, pending⟩ := f
      cases pending with
      | nil => exact ⟨0, false, .exhausted, by simp only at hmet ⊢; omega⟩
      | cons rule rest =>
          simp only [List.length_cons] at hleft hmet ⊢
          by_cases hfound : m.Refers rule target
          · exact ⟨1, true, .found hfound, by omega⟩
          · have hgrow := Frontier.length_meet ⟨met, rest⟩ (m.referencesOf rule)
            simp only at hgrow
            obtain ⟨rounds, answer, hanswers, hle⟩ := ih _ (by omega) (h.follow hfound) rfl
            exact ⟨rounds + 1, answer, .follow hfound hanswers, by omega⟩

/-- The answer of the search, within the rounds that there is fuel for. -/
theorem answers_reaches (m : Model) (source target : String) :
    ∃ rounds ≤ m.referenceCount + 1,
      Answers m target ⟨[], [source]⟩ rounds (m.reaches source target) := by
  obtain ⟨rounds, answer, hanswers, hle⟩ := (Explores.start m source target).exists_answers
  simp only [List.length_cons, List.length_nil] at hle
  have hreaches : m.reaches source target = answer := hanswers.searchFrom_eq (by omega)
  rw [hreaches]
  exact ⟨rounds, by omega, hanswers⟩

theorem reaches_iff {m : Model} {source target : String} :
    m.reaches source target = true ↔ TransGen m.Refers source target := by
  obtain ⟨rounds, -, hanswers⟩ := answers_reaches m source target
  exact hanswers.iff_transGen (Explores.start m source target)

/-- The cyclic rules are the declared ones that reach themselves by references. -/
theorem mem_cyclicRules {m : Model} {rule : String} :
    rule ∈ m.cyclicRules ↔ rule ∈ m.rules ∧ TransGen m.Refers rule rule := by
  unfold cyclicRules
  rw [List.mem_filter, reaches_iff]

end Model
end GrammarRecords
