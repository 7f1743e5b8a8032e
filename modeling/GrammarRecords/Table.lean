/-
Tables in declaration order.

A grammar, a model and a record are all lists of named things whose order is
part of the output.  Redefining a name replaces its value where it stands, so
that the order is the order of first definitions; `insert` is the only way in,
and the field `nodup` holds for every table.
-/

namespace GrammarRecords

/-- Replaces the value of `k` where it stands, or adds the pair at the end. -/
def put {κ υ : Type} [DecidableEq κ] (k : κ) (v : υ) : List (κ × υ) → List (κ × υ)
  | [] => [(k, v)]
  | p :: ps => if p.1 = k then (k, v) :: ps else p :: put k v ps

section Put

variable {κ υ : Type} [DecidableEq κ]

theorem keys_put (k : κ) (v : υ) (ps : List (κ × υ)) :
    (put k v ps).map Prod.fst =
      if k ∈ ps.map Prod.fst then ps.map Prod.fst else ps.map Prod.fst ++ [k] := by
  induction ps with
  | nil => simp [put]
  | cons p ps ih =>
      by_cases h : p.1 = k
      · simp [put, h]
      · have h' : ¬ k = p.1 := fun e => h e.symm
        by_cases m : k ∈ ps.map Prod.fst
        · rw [if_pos m] at ih
          simp [put, h, ih, List.mem_cons, m]
        · rw [if_neg m] at ih
          simp only [put, if_neg h, List.map_cons, ih]
          rw [if_neg (by simp only [List.mem_cons, not_or]; exact ⟨h', m⟩)]
          rfl

theorem nodup_keys_put (k : κ) (v : υ) {ps : List (κ × υ)}
    (h : (ps.map Prod.fst).Nodup) : ((put k v ps).map Prod.fst).Nodup := by
  rw [keys_put]
  split
  · exact h
  · rename_i m
    rw [List.nodup_append]
    refine ⟨h, by simp, ?_⟩
    intro a ha b hb e
    rw [List.mem_singleton] at hb
    subst hb
    exact m (e ▸ ha)

end Put

/-- A list of pairs with distinct keys, in order of first insertion. -/
structure Table (κ υ : Type) where
  entries : List (κ × υ)
  nodup : (entries.map Prod.fst).Nodup
deriving DecidableEq

namespace Table

variable {κ υ ω : Type}

def empty : Table κ υ := ⟨[], by simp⟩

instance : Inhabited (Table κ υ) := ⟨empty⟩

def keys (t : Table κ υ) : List κ := t.entries.map Prod.fst

def values (t : Table κ υ) : List υ := t.entries.map Prod.snd

def size (t : Table κ υ) : Nat := t.entries.length

def isEmpty (t : Table κ υ) : Bool := t.entries.isEmpty

def mapValues (f : υ → ω) (t : Table κ υ) : Table κ ω where
  entries := t.entries.map fun p => (p.1, f p.2)
  nodup := by
    have h : (t.entries.map fun p => (p.1, f p.2)).map Prod.fst = t.entries.map Prod.fst := by
      simp [Function.comp_def]
    rw [h]
    exact t.nodup

/-- The same keys in the same order, without those whose value `f` drops. -/
def filterMapValues (f : υ → Option ω) (t : Table κ υ) : Table κ ω where
  entries := t.entries.filterMap fun p => (f p.2).map fun w => (p.1, w)
  nodup := by
    have h : List.Sublist
        ((t.entries.filterMap fun p => (f p.2).map fun w => (p.1, w)).map Prod.fst)
        (t.entries.map Prod.fst) := by
      induction t.entries with
      | nil => simp
      | cons p ps ih =>
          cases e : f p.2 with
          | none => simpa [List.filterMap_cons, e] using ih.cons p.1
          | some w => simpa [List.filterMap_cons, e] using ih.cons_cons p.1
    exact t.nodup.sublist h

variable [DecidableEq κ]

def get? (t : Table κ υ) (k : κ) : Option υ :=
  (t.entries.find? fun p => p.1 = k).map Prod.snd

def contains (t : Table κ υ) (k : κ) : Bool :=
  decide (k ∈ t.keys)

def insert (t : Table κ υ) (k : κ) (v : υ) : Table κ υ :=
  ⟨put k v t.entries, nodup_keys_put k v t.nodup⟩

/-- Later pairs of a repeated key win, at the place of the first. -/
def ofList (ps : List (κ × υ)) : Table κ υ :=
  ps.foldl (fun t p => t.insert p.1 p.2) empty

theorem keys_insert (t : Table κ υ) (k : κ) (v : υ) :
    (t.insert k v).keys = if k ∈ t.keys then t.keys else t.keys ++ [k] :=
  keys_put k v t.entries

end Table
end GrammarRecords
