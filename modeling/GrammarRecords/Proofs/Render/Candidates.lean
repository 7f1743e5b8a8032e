/-
Which of its candidates a rule is named by.

The candidates for a rule are its converted name and the same with a numeric
suffix, all escaped.  A name that is claimed is the first candidate that is
free, so every candidate before it is the name of some other rule.  `Named`
collects what is known when a list of rules has been registered, in terms of
the names alone: the table and the list of names in use do not occur in it.
-/
import GrammarRecords.Proofs.Render.TypeNames

namespace GrammarRecords
namespace Names

/-- Every candidate before the claimed one was taken. -/
theorem claim_numbered {render : String → String} (hsep : Separates render)
    (taken : List String) (base : String) :
    ∃ n, (claim taken render base).1 = render (numbered base n) ∧
      ∀ j < n, render (numbered base j) ∈ taken := by
  obtain ⟨-, -, hbelow⟩ := (leastFree_iff (hsep base)).mp
    (rfl : leastFree taken (fun n => render (numbered base n)) 0 = _)
  exact ⟨_, rfl, fun j hj => hbelow j (Nat.zero_le j) hj⟩

end Names

namespace Renderer

open Names

def candidate (r : Renderer) (rule : String) (n : Nat) : String :=
  r.escape (numbered (r.typeBase rule) n)

theorem typeBase_of_ne_rust {r : Renderer} (hd : r.dialect ≠ .rust) (rule : String) :
    r.typeBase rule = rule := by
  unfold typeBase
  cases hdialect : r.dialect with
  | rust => exact absurd hdialect hd
  | _ => rfl

/-! ## What registering leaves alone -/

theorem config_registerAll (r : Renderer) (used rules : List String) :
    (r.registerAll used rules).config = r.config := by
  obtain ⟨_, h⟩ := registerAll_preserves (P := fun s _ => s.config = r.config)
    (fun _ hs => hs) used rfl rules
  exact h

theorem cyclic_registerAll (r : Renderer) (used rules : List String) :
    (r.registerAll used rules).cyclic = r.cyclic := by
  obtain ⟨_, h⟩ := registerAll_preserves (P := fun s _ => s.cyclic = r.cyclic)
    (fun _ hs => hs) used rfl rules
  exact h

@[simp] theorem config_withRules (r : Renderer) (rules : List String) :
    (r.withRules rules).config = r.config :=
  config_registerAll r r.typeNames.values rules

@[simp] theorem cyclic_withRules (r : Renderer) (rules : List String) :
    (r.withRules rules).cyclic = r.cyclic :=
  cyclic_registerAll r r.typeNames.values rules

theorem candidate_congr {r s : Renderer} (h : r.config = s.config) (rule : String) (n : Nat) :
    r.candidate rule n = s.candidate rule n := by
  unfold candidate escape typeBase dialect
  rw [h]

@[simp] theorem candidate_withRules (r : Renderer) (rules : List String) (rule : String) (n : Nat) :
    (r.withRules rules).candidate rule n = r.candidate rule n :=
  candidate_congr (config_withRules r rules) rule n

/-! ## The table after a batch -/

theorem mem_keys_registerAll {r : Renderer} {used rules : List String} {x : String} :
    x ∈ (r.registerAll used rules).typeNames.keys ↔ x ∈ r.typeNames.keys ∨ x ∈ rules := by
  induction rules generalizing r used with
  | nil => simp [registerAll]
  | cons rule rest ih =>
      by_cases hrule : rule ∈ r.typeNames.keys
      · rw [registerAll_known hrule, ih, List.mem_cons]
        constructor
        · exact Or.imp_right Or.inr
        · rintro (hx | rfl | hx)
          · exact Or.inl hx
          · exact Or.inl hrule
          · exact Or.inr hx
      · have hkeys : (r.registerNew used rule).typeNames.keys = r.typeNames.keys ++ [rule] := by
          unfold registerNew
          rw [Table.keys_insert, if_neg hrule]
        rw [registerAll_new hrule, ih, hkeys, List.mem_append, List.mem_singleton, List.mem_cons,
          or_assoc]

/-- Every name in the table is a candidate whose predecessors are in the table too. -/
def FirstFree (r : Renderer) : Prop :=
  ∀ rule name, r.typeNames.get? rule = some name →
    ∃ n, name = r.candidate rule n ∧ ∀ j < n, r.candidate rule j ∈ r.typeNames.values

theorem firstFree_registerNew {r : Renderer} {used : List String} {rule : String}
    (hnew : rule ∉ r.typeNames.keys) (htracks : Tracks r used) (h : r.FirstFree) :
    (r.registerNew used rule).FirstFree := by
  have hvalues : (r.registerNew used rule).typeNames.values =
      r.typeNames.values ++ [(claim used r.escape (r.typeBase rule)).1] := by
    unfold registerNew
    exact Table.values_insert_of_not_mem _ hnew
  intro x name hname
  have hcandidate : ∀ n, (r.registerNew used rule).candidate x n = r.candidate x n :=
    candidate_congr rfl x
  simp only [hcandidate, hvalues, List.mem_append]
  by_cases hx : x = rule
  · subst hx
    obtain ⟨n, hclaim, hbelow⟩ := claim_numbered r.separates_escape used (r.typeBase x)
    have hself : (r.registerNew used x).typeNames.get? x =
        some (claim used r.escape (r.typeBase x)).1 := Table.get?_insert_self r.typeNames x _
    rw [hself] at hname
    refine ⟨n, (Option.some.inj hname).symm.trans hclaim, fun j hj => Or.inl ?_⟩
    exact (htracks _).mp (hbelow j hj)
  · have hold : (r.registerNew used rule).typeNames.get? x = r.typeNames.get? x :=
      Table.get?_insert_of_ne r.typeNames _ hx
    rw [hold] at hname
    obtain ⟨n, hn, hbelow⟩ := h x name hname
    exact ⟨n, hn, fun j hj => Or.inl (hbelow j hj)⟩

theorem firstFree_withRules {r : Renderer} (h : r.FirstFree) (rules : List String) :
    (r.withRules rules).FirstFree := by
  obtain ⟨_, -, hrun⟩ := registerAll_preserves
    (P := fun r used => Tracks r used ∧ r.FirstFree)
    (fun hnew hp => ⟨tracks_registerNew hp.1 hnew, firstFree_registerNew hnew hp.1 hp.2⟩)
    r.typeNames.values ⟨r.tracks_values, h⟩ rules
  exact hrun

/-! ## Names of rules -/

/-- The renderer has given names to the rules of the list and to no others. -/
structure Named (r : Renderer) (rules : List String) : Prop where
  plain_of_not_mem : ∀ rule, rule ∉ rules → r.typeName rule = r.candidate rule 0
  injective : ∀ a ∈ rules, ∀ b ∈ rules, r.typeName a = r.typeName b → a = b
  first_free : ∀ rule ∈ rules, ∃ n, r.typeName rule = r.candidate rule n ∧
    ∀ j < n, ∃ other ∈ rules, r.typeName other = r.candidate rule j

theorem named_withRules {r : Renderer} (hempty : r.typeNames = .empty) (rules : List String) :
    (r.withRules rules).Named rules := by
  have hkeys : ∀ x, x ∈ (r.withRules rules).typeNames.keys ↔ x ∈ rules := by
    intro x
    unfold withRules
    rw [mem_keys_registerAll, hempty]
    exact or_iff_right List.not_mem_nil
  have hname : ∀ x ∈ rules,
      (r.withRules rules).typeNames.get? x = some ((r.withRules rules).typeName x) := by
    intro x hx
    obtain ⟨name, hget⟩ := Table.mem_keys_iff.mp ((hkeys x).mpr hx)
    rw [typeName_of_get? hget, hget]
  have hnodup : (r.withRules rules).typeNames.values.Nodup := by
    refine values_nodup_registerAll r.tracks_values ?_ rules
    rw [hempty]
    exact List.nodup_nil
  have hfree : (r.withRules rules).FirstFree := by
    refine firstFree_withRules (fun x name hget => ?_) rules
    rw [hempty] at hget
    exact absurd hget (by simp [Table.get?, Table.empty])
  refine ⟨?_, ?_, ?_⟩
  · intro rule hrule
    have hnone : (r.withRules rules).typeNames.get? rule = none := by
      refine Option.eq_none_iff_forall_ne_some.mpr fun name hget => hrule ?_
      exact (hkeys rule).mp (Table.mem_keys_iff.mpr ⟨name, hget⟩)
    unfold typeName
    rw [hnone]
    rfl
  · intro a ha b hb e
    exact Table.key_unique hnodup (hname a ha) (e ▸ hname b hb)
  · intro rule hrule
    obtain ⟨n, hn, hbelow⟩ := hfree rule _ (hname rule hrule)
    refine ⟨n, hn, fun j hj => ?_⟩
    obtain ⟨p, hp, hpname⟩ := List.mem_map.mp (hbelow j hj)
    have hget : (r.withRules rules).typeNames.get? p.1 = some p.2 := Table.get?_eq_some_iff.mpr hp
    refine ⟨p.1, (hkeys p.1).mp (Table.mem_keys_iff.mpr ⟨p.2, hget⟩), ?_⟩
    rw [typeName_of_get? hget]
    exact hpname

theorem named_afterBatches (config : RenderConfig) (batches : List (List String)) :
    (afterBatches config batches).Named batches.flatten := by
  rw [afterBatches_eq]
  exact named_withRules rfl batches.flatten

theorem config_afterBatches (config : RenderConfig) (batches : List (List String)) :
    (afterBatches config batches).config = config := by
  rw [afterBatches_eq, config_withRules]
  rfl

theorem dialect_afterBatches (config : RenderConfig) (batches : List (List String)) :
    (afterBatches config batches).dialect = config.dialect := by
  rw [dialect, config_afterBatches]

/-- Later batches leave the names as they are. -/
theorem typeName_withRules_append {r : Renderer} {rules : List String} {rule : String}
    (h : rule ∈ rules) (more : List String) :
    (r.withRules (rules ++ more)).typeName rule = (r.withRules rules).typeName rule := by
  obtain ⟨name, hname⟩ := get?_registerAll_of_mem h r r.typeNames.values
  rw [withRules_append, typeName_of_get? (r := r.withRules rules) hname]
  exact typeName_of_get? (get?_registerAll hname _ more)

namespace Named

variable {r : Renderer} {rules : List String}

/-- A rule keeps its first candidate unless another rule has it. -/
theorem typeName_eq_plain (h : r.Named rules) {rule : String} (hrule : rule ∈ rules)
    (hfree : ∀ other ∈ rules, other ≠ rule → r.typeName other ≠ r.candidate rule 0) :
    r.typeName rule = r.candidate rule 0 := by
  obtain ⟨n, hn, hbelow⟩ := h.first_free rule hrule
  rcases Nat.eq_zero_or_pos n with rfl | hpos
  · exact hn
  · obtain ⟨other, hother, hname⟩ := hbelow 0 hpos
    by_cases e : other = rule
    · exact e ▸ hname
    · exact absurd hname (hfree other hother e)

end Named

/-- The rule that is named last keeps its first candidate unless a rule before it has it. -/
theorem typeName_last_eq_plain {r : Renderer} (hempty : r.typeNames = .empty)
    {front : List String} {rule : String} (hfree : ∀ other ∈ front, other ≠ rule →
      (r.withRules front).typeName other ≠ r.candidate rule 0) :
    (r.withRules (front ++ [rule])).typeName rule = r.candidate rule 0 := by
  have hself : rule ∈ front ++ [rule] := List.mem_append_right front (List.mem_singleton_self rule)
  rw [(named_withRules hempty (front ++ [rule])).typeName_eq_plain hself, candidate_withRules]
  intro other hother hne hname
  have hin : other ∈ front := by
    rcases List.mem_append.mp hother with hin | hlast
    · exact hin
    · exact absurd (List.mem_singleton.mp hlast) hne
  rw [typeName_withRules_append hin, candidate_withRules] at hname
  exact hfree other hin hne hname

/-- Where first candidates differ no suffix is used. -/
theorem typeName_eq_plain_of_distinct {r : Renderer} (hempty : r.typeNames = .empty)
    (rules : List String)
    (hdistinct : ∀ a ∈ rules, ∀ b ∈ rules, r.candidate a 0 = r.candidate b 0 → a = b) :
    ∀ rule ∈ rules, (r.withRules rules).typeName rule = r.candidate rule 0 := by
  induction rules using List.reverseRecOn with
  | nil => exact fun rule hrule => absurd hrule List.not_mem_nil
  | append_singleton front last ih =>
      have hfront := ih fun a ha b hb =>
        hdistinct a (List.mem_append_left _ ha) b (List.mem_append_left _ hb)
      intro rule hrule
      by_cases hmem : rule ∈ front
      · rw [typeName_withRules_append hmem, hfront rule hmem]
      · obtain rfl : rule = last := by
          rcases List.mem_append.mp hrule with hin | hlast
          · exact absurd hin hmem
          · exact List.mem_singleton.mp hlast
        refine typeName_last_eq_plain hempty fun other hother hne hname => ?_
        rw [hfront other hother] at hname
        exact hne (hdistinct other (List.mem_append_left _ hother) rule hrule hname)

end Renderer
end GrammarRecords
