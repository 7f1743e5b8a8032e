/-
The names of the fields of a record.

A field is called after its member, with a suffix if that name is taken.  When
it is taken there is a field of that name already, so the name of every member
is the name of some field, and besides these there are only names with a suffix.

The namer counts the suffixes of each base and never starts again from one.  It
passes no free suffix by this: the suffixes below the count were taken when it
was passed on, and no name becomes free again (`Counted`).  So every field gets
the name that a search from the base itself would find, and
`record_least_suffixes` says what a record is without the namer.
-/
import GrammarRecords.Proofs.Names.Search
import GrammarRecords.Proofs.Table
import GrammarRecords.Record

namespace GrammarRecords

open Names

namespace FieldNamer

theorem taken_assign (namer : FieldNamer) (base : String) :
    (namer.assign base).2.taken = (namer.assign base).1 :: namer.taken := by
  unfold assign
  split <;> rfl

/-! ## Counted suffixes -/

/-- The base and all suffixes below its count are taken. -/
def Counted (namer : FieldNamer) : Prop :=
  ∀ base count, namer.nextSuffix.get? base = some count →
    ∀ n < count, numbered base n ∈ namer.taken

theorem counted_start : start.Counted := fun _ _ h => nomatch h

theorem separates_id : Separates id := fun _ _ _ h => numbered_injective h

/-- For a base that is taken, all candidates are that stand before the one to try next. -/
theorem Counted.taken_below {namer : FieldNamer} (h : namer.Counted) {base : String}
    (hbase : base ∈ namer.taken) :
    ∀ n < (namer.nextSuffix.get? base).getD 1, numbered base n ∈ namer.taken := by
  intro n hn
  cases hcount : namer.nextSuffix.get? base with
  | none =>
      rw [hcount, Option.getD_none, Nat.lt_one_iff] at hn
      rw [hn]
      exact hbase
  | some count =>
      rw [hcount, Option.getD_some] at hn
      exact h base count hcount n hn

/-- Starting at the count finds what starting at the base would find. -/
theorem Counted.assign_eq_claim {namer : FieldNamer} (h : namer.Counted) (base : String) :
    (namer.assign base).1 = (claim namer.taken id base).1 := by
  unfold assign
  split
  · rename_i hbase
    show numbered base (leastFree namer.taken (numbered base)
      ((namer.nextSuffix.get? base).getD 1)) = _
    rw [leastFree_of_taken_below (fun _ _ => numbered_injective) (h.taken_below hbase)]
    rfl
  · rename_i hbase
    have hzero : leastFree namer.taken (numbered base) 0 = 0 :=
      (leastFree_iff fun _ _ => numbered_injective).mpr
        ⟨Nat.le_refl 0, hbase, fun j _ hj => absurd hj (Nat.not_lt_zero j)⟩
    show base = numbered base (leastFree namer.taken (numbered base) 0)
    rw [hzero]
    rfl

theorem Counted.assign {namer : FieldNamer} (h : namer.Counted) (base : String) :
    (namer.assign base).2.Counted := by
  have hkeep : ∀ {other n}, numbered other n ∈ namer.taken →
      numbered other n ∈ (namer.assign base).2.taken := by
    intro other n hmem
    rw [namer.taken_assign base]
    exact List.mem_cons_of_mem _ hmem
  intro other count hcount n hn
  unfold FieldNamer.assign at hcount hkeep ⊢
  split at hcount
  · rename_i hbase
    rw [if_pos hbase] at hkeep ⊢
    by_cases hother : other = base
    · subst hother
      rw [Table.get?_insert_self, Option.some.injEq] at hcount
      subst hcount
      rcases Nat.lt_succ_iff_lt_or_eq.mp hn with hlt | rfl
      · refine hkeep ?_
        by_cases hstart : n < (namer.nextSuffix.get? other).getD 1
        · exact h.taken_below hbase n hstart
        · exact mem_of_lt_leastFreeFrom (Nat.le_of_not_lt hstart) hlt
      · exact List.mem_cons_self
    · rw [Table.get?_insert_of_ne _ _ hother] at hcount
      exact hkeep (h other count hcount n hn)
  · rename_i hbase
    rw [if_neg hbase] at hkeep ⊢
    exact hkeep (h other count hcount n hn)

theorem map_fst_assignAll {namer : FieldNamer} (h : namer.Counted) (members : List Shape) :
    (namer.assignAll members).map Prod.fst =
      claimAll id namer.taken (members.map Shape.fieldName) := by
  induction members generalizing namer with
  | nil => rfl
  | cons s rest ih =>
      rw [assignAll, List.map_cons, ih (h.assign s.fieldName), namer.taken_assign,
        h.assign_eq_claim, List.map_cons, claimAll]

theorem map_snd_assignAll (namer : FieldNamer) (members : List Shape) :
    (namer.assignAll members).map Prod.snd = members := by
  induction members generalizing namer with
  | nil => rfl
  | cons s rest ih => rw [assignAll, List.map_cons, ih]

end FieldNamer

namespace Shape

theorem fieldName_cases (s : Shape) :
    s.fieldName ∈ s.references ∨ s.fieldName = "value" ∨ s.fieldName = "ast" := by
  fun_induction fieldName s with
  | case1 => exact Or.inr (Or.inl rfl)
  | case2 name => exact Or.inl (List.mem_singleton_self name)
  | case3 kind inner ih => exact ih
  | case4 => exact Or.inr (Or.inr rfl)
  | case5 => exact Or.inr (Or.inr rfl)

theorem references_of_mem_members {shape member : Shape} (h : member ∈ shape.members) :
    member.references ⊆ shape.references := by
  cases shape with
  | sequence parts =>
      intro rule hrule
      rw [references, referencesOfMembers_eq_flatMap]
      exact List.mem_flatMap.mpr ⟨member, h, hrule⟩
  | empty => rw [List.mem_singleton.mp h]; exact List.Subset.refl _
  | rule name => rw [List.mem_singleton.mp h]; exact List.Subset.refl _
  | choice options => rw [List.mem_singleton.mp h]; exact List.Subset.refl _
  | container kind inner => rw [List.mem_singleton.mp h]; exact List.Subset.refl _

/-! ## The record -/

theorem fieldNames_assigned (members : List Shape) :
    (FieldNamer.start.assignAll members).map Prod.fst =
      claimAll id [] (members.map fieldName) :=
  FieldNamer.map_fst_assignAll FieldNamer.counted_start members

/-- No field replaces another one. -/
theorem entries_record (name : String) (shape : Shape) :
    (shape.record name).fields.entries = FieldNamer.start.assignAll shape.members := by
  refine Table.entries_foldl_insert ?_
  show ((FieldNamer.start.assignAll shape.members).map Prod.fst).Nodup
  rw [fieldNames_assigned]
  exact nodup_claimAll FieldNamer.separates_id [] _

theorem fieldNames_record (name : String) (shape : Shape) :
    (shape.record name).fieldNames = claimAll id [] (shape.members.map fieldName) := by
  rw [← fieldNames_assigned, ← entries_record name shape]
  rfl

theorem exists_numbered_of_mem_fieldNames {name field : String} {shape : Shape}
    (h : field ∈ (shape.record name).fieldNames) :
    ∃ member ∈ shape.members, ∃ n, field = numbered member.fieldName n := by
  rw [fieldNames_record] at h
  obtain ⟨base, hbase, hn⟩ := exists_numbered_of_mem_claimAll h
  obtain ⟨member, hmember, rfl⟩ := List.mem_map.mp hbase
  exact ⟨member, hmember, hn⟩

theorem values_record (name : String) (shape : Shape) :
    (shape.record name).fields.values = shape.members := by
  unfold Table.values
  rw [entries_record, FieldNamer.map_snd_assignAll]

/--
What a member called `base` gets as the name of its field behind the fields
`before`: the base, or if a field before has it the base with the least suffix
from one on that no field before has.
-/
def FieldAfter (before : List String) (base field : String) : Prop :=
  (base ∉ before ∧ field = base) ∨
    (base ∈ before ∧ ∃ n, 1 ≤ n ∧ field = base ++ toString n ∧ base ++ toString n ∉ before ∧
      ∀ m, 1 ≤ m → m < n → base ++ toString m ∈ before)

theorem fieldAfter_claim {taken before : List String} (h : ∀ x, x ∈ taken ↔ x ∈ before)
    (base : String) : FieldAfter before base (claim taken id base).1 := by
  rw [claim_congr FieldNamer.separates_id h]
  rcases claim_cases FieldNamer.separates_id before base with hfree | ⟨htaken, n, hn⟩
  · exact Or.inl hfree
  · exact Or.inr ⟨htaken, n, hn⟩

theorem exists_fieldAfter {shape member : Shape} {i : Nat} (h : shape.members[i]? = some member)
    (name : String) : ∃ field, (shape.record name).fieldNames[i]? = some field ∧
      FieldAfter ((shape.record name).fieldNames.take i) member.fieldName field := by
  have hbase : (shape.members.map fieldName)[i]? = some member.fieldName := by
    rw [List.getElem?_map, h]
    rfl
  rw [fieldNames_record]
  refine ⟨_, claimAll_getElem? hbase, fieldAfter_claim (fun x => ?_) member.fieldName⟩
  rw [List.append_nil, List.mem_reverse]

theorem fieldName_mem_fieldNames {shape member : Shape} (h : member ∈ shape.members)
    (name : String) : member.fieldName ∈ (shape.record name).fieldNames := by
  obtain ⟨i, hi⟩ := List.getElem?_of_mem h
  obtain ⟨field, hfield, ⟨-, rfl⟩ | ⟨htaken, -⟩⟩ := exists_fieldAfter hi name
  · exact List.mem_of_getElem? hfield
  · exact List.mem_of_mem_take htaken

/--
A record has one field for each member, in their order and with the member as
its value.  The names of the fields are distinct, and each is the least free one
behind those before it.
-/
theorem record_least_suffixes (name : String) (shape : Shape) :
    (shape.record name).name = name ∧
    (shape.record name).fields.values = shape.members ∧
    (shape.record name).fieldNames.Nodup ∧
    ∀ i member, shape.members[i]? = some member → ∃ field,
      (shape.record name).fieldNames[i]? = some field ∧
        FieldAfter ((shape.record name).fieldNames.take i) member.fieldName field := by
  refine ⟨rfl, values_record name shape, (shape.record name).fields.nodup, ?_⟩
  intro i member hmember
  exact exists_fieldAfter hmember name

/-- A suffixed name that is the base of another member, and a count that has to skip it. -/
def suffixedNames : Shape :=
  .sequence [.rule "x", .rule "x2", .rule "x", .container .list (.rule "x"), .rule "x2"]

theorem record_least_suffixes_suffixedNames :
    (suffixedNames.record "r").fieldNames = ["x", "x2", "x1", "x3", "x21"] ∧
      FieldAfter ["x", "x2", "x1"] "x" "x3" := by
  have hfields : (suffixedNames.record "r").fieldNames = ["x", "x2", "x1", "x3", "x21"] := by
    decide +kernel
  obtain ⟨field, hfield, hafter⟩ :=
    (record_least_suffixes "r" suffixedNames).2.2.2 3 (.container .list (.rule "x")) rfl
  rw [hfields] at hfield hafter
  obtain rfl : "x3" = field := Option.some.inj hfield
  exact ⟨hfields, hafter⟩

end Shape
end GrammarRecords
