/-
Looking up in a table.

The entries of a table have distinct keys, so a lookup finds a pair exactly if
the pair is an entry, and inserting changes one lookup only.  A table built
from pairs has the keys in the order of their first occurrences and the values
of their last; from pairs with distinct keys it has just these as entries.
-/
import GrammarRecords.Table
import Mathlib.Data.List.Induction
import Mathlib.Data.List.Nodup

namespace GrammarRecords

section Put

variable {κ υ : Type} [DecidableEq κ]

theorem put_of_not_mem {k : κ} {ps : List (κ × υ)} (v : υ) (h : k ∉ ps.map Prod.fst) :
    put k v ps = ps ++ [(k, v)] := by
  induction ps with
  | nil => rfl
  | cons p ps ih =>
      rw [List.map_cons, List.mem_cons, not_or] at h
      have hne : ¬ p.1 = k := fun e => h.1 e.symm
      rw [put, if_neg hne, ih h.2, List.cons_append]

theorem mem_of_mem_put {k : κ} {v : υ} {ps : List (κ × υ)} {p : κ × υ} (h : p ∈ put k v ps) :
    p = (k, v) ∨ p ∈ ps := by
  induction ps with
  | nil => exact Or.inl (List.mem_singleton.mp h)
  | cons q qs ih =>
      by_cases hq : q.1 = k
      · rw [put, if_pos hq, List.mem_cons] at h
        exact h.imp_right (List.mem_cons_of_mem q)
      · rw [put, if_neg hq, List.mem_cons] at h
        rcases h with rfl | hrest
        · exact Or.inr List.mem_cons_self
        · exact (ih hrest).imp_right (List.mem_cons_of_mem q)

theorem find?_put_self (k : κ) (v : υ) (ps : List (κ × υ)) :
    (put k v ps).find? (fun p => p.1 = k) = some (k, v) := by
  induction ps with
  | nil => simp [put]
  | cons p ps ih =>
      by_cases h : p.1 = k
      · simp [put, h]
      · simp [put, h, ih]

theorem find?_put_of_ne {k l : κ} (v : υ) (ps : List (κ × υ)) (h : l ≠ k) :
    (put k v ps).find? (fun p => p.1 = l) = ps.find? (fun p => p.1 = l) := by
  have hne : ¬ k = l := fun e => h e.symm
  induction ps with
  | nil => simp [put, hne]
  | cons p ps ih =>
      by_cases hp : p.1 = k
      · have hpl : ¬ p.1 = l := fun e => h (e.symm.trans hp)
        simp [put, hp, hne]
      · rw [put, if_neg hp, List.find?_cons, List.find?_cons, ih]

theorem map_put {ω : Type} (f : υ → ω) (k : κ) (v : υ) (ps : List (κ × υ)) :
    (put k v ps).map (fun p => (p.1, f p.2)) = put k (f v) (ps.map fun p => (p.1, f p.2)) := by
  induction ps with
  | nil => rfl
  | cons p ps ih =>
      rw [List.map_cons, put, put]
      split_ifs
      · rfl
      · rw [List.map_cons, ih]

end Put

namespace Table

variable {κ υ : Type}

theorem ext_entries {t u : Table κ υ} (h : t.entries = u.entries) : t = u := by
  cases t
  cases u
  simp only at h
  subst h
  rfl

variable [DecidableEq κ]

theorem contains_iff {t : Table κ υ} {k : κ} : t.contains k = true ↔ k ∈ t.keys := by
  simp [contains]

theorem get?_eq_some_iff {t : Table κ υ} {k : κ} {v : υ} :
    t.get? k = some v ↔ (k, v) ∈ t.entries := by
  obtain ⟨ps, hnodup⟩ := t
  unfold get?
  simp only
  induction ps with
  | nil => simp
  | cons p ps ih =>
      rw [List.map_cons, List.nodup_cons] at hnodup
      by_cases h : p.1 = k
      · have hout : (k, v) ∉ ps := by
          intro hin
          exact hnodup.1 (h ▸ List.mem_map_of_mem hin)
        rw [List.find?_cons_of_pos (by simpa using h), List.mem_cons]
        constructor
        · intro e
          have hv : p.2 = v := by simpa using e
          exact Or.inl (Prod.ext h.symm hv.symm)
        · rintro (e | hin)
          · simp [← e]
          · exact absurd hin hout
      · rw [List.find?_cons_of_neg (by simpa using h), ih hnodup.2, List.mem_cons]
        constructor
        · exact Or.inr
        · rintro (e | hin)
          · exact absurd (congrArg Prod.fst e).symm h
          · exact hin

theorem mem_keys_iff {t : Table κ υ} {k : κ} : k ∈ t.keys ↔ ∃ v, t.get? k = some v := by
  simp only [get?_eq_some_iff, keys, List.mem_map, Prod.exists, exists_and_right, exists_eq_right]

theorem entries_insert_of_not_mem {t : Table κ υ} {k : κ} (v : υ) (h : k ∉ t.keys) :
    (t.insert k v).entries = t.entries ++ [(k, v)] :=
  put_of_not_mem v h

theorem values_insert_of_not_mem {t : Table κ υ} {k : κ} (v : υ) (h : k ∉ t.keys) :
    (t.insert k v).values = t.values ++ [v] := by
  unfold values
  rw [entries_insert_of_not_mem v h, List.map_append]
  rfl

theorem get?_insert_self (t : Table κ υ) (k : κ) (v : υ) : (t.insert k v).get? k = some v := by
  unfold get? insert
  simp only
  rw [find?_put_self]
  rfl

theorem get?_insert_of_ne (t : Table κ υ) {k l : κ} (v : υ) (h : l ≠ k) :
    (t.insert k v).get? l = t.get? l := by
  unfold get? insert
  simp only
  rw [find?_put_of_ne v t.entries h]

theorem mapValues_insert {ω : Type} (f : υ → ω) (t : Table κ υ) (k : κ) (v : υ) :
    (t.insert k v).mapValues f = (t.mapValues f).insert k (f v) :=
  ext_entries (map_put f k v t.entries)

/-- With distinct values a value has one key. -/
theorem key_unique {t : Table κ υ} (h : t.values.Nodup) {k l : κ} {v : υ}
    (hk : t.get? k = some v) (hl : t.get? l = some v) : k = l := by
  rw [get?_eq_some_iff] at hk hl
  exact congrArg Prod.fst (List.inj_on_of_nodup_map h hk hl rfl)

/-! ## Building a table -/

theorem entries_foldl_insert {t : Table κ υ} {ps : List (κ × υ)}
    (h : (t.keys ++ ps.map Prod.fst).Nodup) :
    (ps.foldl (fun t p => t.insert p.1 p.2) t).entries = t.entries ++ ps := by
  induction ps generalizing t with
  | nil => exact (List.append_nil _).symm
  | cons p ps ih =>
      have hnew : p.1 ∉ t.keys := by
        intro hin
        exact List.disjoint_of_nodup_append h hin List.mem_cons_self
      have hrest : ((t.insert p.1 p.2).keys ++ ps.map Prod.fst).Nodup := by
        rw [keys_insert, if_neg hnew, List.append_assoc]
        exact h
      rw [List.foldl_cons, ih hrest, entries_insert_of_not_mem p.2 hnew, List.append_assoc,
        List.singleton_append]

theorem mem_entries_foldl_insert {t : Table κ υ} {ps : List (κ × υ)} {p : κ × υ}
    (h : p ∈ (ps.foldl (fun t p => t.insert p.1 p.2) t).entries) : p ∈ t.entries ∨ p ∈ ps := by
  induction ps generalizing t with
  | nil => exact Or.inl h
  | cons q qs ih =>
      rcases ih h with hinsert | htail
      · rcases mem_of_mem_put hinsert with hq | hold
        · exact Or.inr (hq ▸ List.mem_cons_self)
        · exact Or.inl hold
      · exact Or.inr (List.mem_cons_of_mem q htail)

/-- A table built from pairs has no other entries than these. -/
theorem mem_of_mem_entries_ofList {ps : List (κ × υ)} {p : κ × υ}
    (h : p ∈ (ofList ps).entries) : p ∈ ps :=
  (mem_entries_foldl_insert h).resolve_left List.not_mem_nil

theorem size_insert_le (t : Table κ υ) (k : κ) (v : υ) : (t.insert k v).size ≤ t.size + 1 := by
  have hsize : ∀ t : Table κ υ, t.size = t.keys.length := fun t => List.length_map _ |>.symm
  rw [hsize, hsize, keys_insert]
  split_ifs
  · exact Nat.le_succ _
  · exact Nat.le_of_eq (List.length_append.trans rfl)

theorem size_foldl_insert_le (t : Table κ υ) (ps : List (κ × υ)) :
    (ps.foldl (fun t p => t.insert p.1 p.2) t).size ≤ t.size + ps.length := by
  induction ps generalizing t with
  | nil => exact Nat.le_refl _
  | cons p ps ih =>
      have hinsert := t.size_insert_le p.1 p.2
      have hrest := ih (t.insert p.1 p.2)
      rw [List.foldl_cons, List.length_cons]
      omega

theorem size_ofList_le (ps : List (κ × υ)) : (ofList ps).size ≤ ps.length := by
  have h := size_foldl_insert_le .empty ps
  rwa [show (empty : Table κ υ).size = 0 from rfl, Nat.zero_add] at h

theorem ofList_concat (ps : List (κ × υ)) (p : κ × υ) :
    ofList (ps ++ [p]) = (ofList ps).insert p.1 p.2 :=
  List.foldl_append

/-- The order is that of the first occurrences. -/
theorem keys_ofList (ps : List (κ × υ)) : (ofList ps).keys = (ps.map Prod.fst).eraseDups := by
  induction ps using List.reverseRecOn with
  | nil => rfl
  | append_singleton ps p ih =>
      rw [ofList_concat, keys_insert, ih, List.map_append, List.map_singleton,
        List.eraseDups_append, List.removeAll, List.filter_singleton, List.elem_eq_mem]
      simp only [List.mem_eraseDups]
      by_cases h : p.1 ∈ ps.map Prod.fst
      · rw [if_pos h, decide_eq_true h]
        exact (List.append_nil _).symm
      · rw [if_neg h, decide_eq_false h]
        rfl

/-- The value is that of the last occurrence. -/
theorem get?_ofList (ps : List (κ × υ)) (k : κ) :
    (ofList ps).get? k = (ps.findRev? fun p => p.1 = k).map Prod.snd := by
  induction ps using List.reverseRecOn with
  | nil => rfl
  | append_singleton ps p ih =>
      rw [ofList_concat, List.findRev?_eq_find?_reverse, List.reverse_append,
        List.reverse_singleton, List.singleton_append]
      by_cases h : p.1 = k
      · subst h
        rw [get?_insert_self, List.find?_cons_of_pos (by simp)]
        rfl
      · rw [get?_insert_of_ne _ _ (Ne.symm h), ih, List.find?_cons_of_neg (by simpa using h),
          List.findRev?_eq_find?_reverse]

theorem mapValues_ofList {ω : Type} (f : υ → ω) (ps : List (κ × υ)) :
    (ofList ps).mapValues f = ofList (ps.map fun p => (p.1, f p.2)) := by
  induction ps using List.reverseRecOn with
  | nil => rfl
  | append_singleton ps p ih =>
      rw [ofList_concat, mapValues_insert, ih, List.map_append]
      exact (ofList_concat (ps.map fun p => (p.1, f p.2)) (p.1, f p.2)).symm

/-- A table is built from its own entries. -/
theorem ofList_entries (t : Table κ υ) : ofList t.entries = t := by
  apply ext_entries
  unfold ofList
  rw [entries_foldl_insert]
  · rfl
  · exact t.nodup

end Table
end GrammarRecords
