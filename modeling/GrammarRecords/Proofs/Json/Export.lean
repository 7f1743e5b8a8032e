/-
Models and lists of records can be told apart by their JSON texts.

The value of an empty shape is a string, that of any other shape an object with
one member, whose key names the constructor.  The arguments are in the value of
that member, so different shapes have different values, by induction over the
shape.  The rule names of a model are keys of an object of their own and never
meet the keys that name constructors.  No value has a number in it, so values
are determined by their texts, and the theorem this file exists for is
`json_faithful`.
-/
import GrammarRecords.Json.Export
import GrammarRecords.Proofs.Json.Printing
import GrammarRecords.Proofs.Table

namespace GrammarRecords

open Json (Value)

theorem ContainerKind.name_injective : Function.Injective ContainerKind.name := by
  intro kind other h
  revert h
  cases kind <;> cases other <;> decide

namespace Shape

mutual

theorem numberFree_toJson : ∀ s : Shape, s.toJson.NumberFree
  | .empty => by
      rw [toJson]
      exact .string "Empty"
  | .rule name => by
      rw [toJson]
      exact .object (List.forall_mem_singleton.mpr (.string name))
  | .sequence parts => by
      rw [toJson]
      exact .object (List.forall_mem_singleton.mpr (.array (numberFree_toJsonAll parts)))
  | .choice options => by
      rw [toJson]
      exact .object (List.forall_mem_singleton.mpr (.array (numberFree_toJsonAll options)))
  | .container kind inner => by
      rw [toJson]
      have hfields : ∀ m ∈ [("kind", Value.string kind.name), ("inner", inner.toJson)],
          m.2.NumberFree :=
        List.forall_mem_cons.mpr
          ⟨.string kind.name, List.forall_mem_singleton.mpr (numberFree_toJson inner)⟩
      exact .object (List.forall_mem_singleton.mpr (.object hfields))

theorem numberFree_toJsonAll : ∀ (ss : List Shape), ∀ v ∈ toJsonAll ss, v.NumberFree
  | [] => by simp [toJsonAll]
  | s :: rest => by
      rw [toJsonAll]
      exact List.forall_mem_cons.mpr ⟨numberFree_toJson s, numberFree_toJsonAll rest⟩

end

mutual

theorem toJson_inj : ∀ {s t : Shape}, s.toJson = t.toJson → s = t
  | .empty, t, h => by
      cases t with
      | empty => rfl
      | _ => simp [toJson] at h
  | .rule name, t, h => by
      cases t with
      | rule name' =>
          simp only [toJson, Value.object.injEq, List.cons.injEq, Prod.mk.injEq, Value.string.injEq,
            true_and, and_true] at h
          rw [h]
      | _ => simp [toJson] at h
  | .sequence parts, t, h => by
      cases t with
      | sequence parts' =>
          simp only [toJson, Value.object.injEq, List.cons.injEq, Prod.mk.injEq, Value.array.injEq,
            true_and, and_true] at h
          rw [toJsonAll_inj h]
      | _ => simp [toJson] at h
  | .choice options, t, h => by
      cases t with
      | choice options' =>
          simp only [toJson, Value.object.injEq, List.cons.injEq, Prod.mk.injEq, Value.array.injEq,
            true_and, and_true] at h
          rw [toJsonAll_inj h]
      | _ => simp [toJson] at h
  | .container kind inner, t, h => by
      cases t with
      | container kind' inner' =>
          simp only [toJson, Value.object.injEq, List.cons.injEq, Prod.mk.injEq, Value.string.injEq,
            true_and, and_true] at h
          rw [ContainerKind.name_injective h.1, toJson_inj h.2]
      | _ => simp [toJson] at h

theorem toJsonAll_inj : ∀ {ss ts : List Shape}, toJsonAll ss = toJsonAll ts → ss = ts
  | [], ts, h => by
      cases ts with
      | nil => rfl
      | cons t ts => simp [toJsonAll] at h
  | s :: ss, ts, h => by
      cases ts with
      | nil => simp [toJsonAll] at h
      | cons t ts =>
          simp only [toJsonAll, List.cons.injEq] at h
          rw [toJson_inj h.1, toJsonAll_inj h.2]

end

end Shape

theorem numberFree_shapesToJson (shapes : Table String Shape) :
    (shapesToJson shapes).NumberFree := by
  refine .object fun m hm => ?_
  obtain ⟨p, -, rfl⟩ := List.mem_map.mp hm
  exact p.2.numberFree_toJson

theorem shapesToJson_injective : Function.Injective shapesToJson := by
  intro shapes others h
  have hmember : Function.Injective fun p : String × Shape => (p.1, p.2.toJson) := by
    intro p q hpq
    have hshape := Shape.toJson_inj (Prod.mk.inj hpq).2
    exact Prod.ext (Prod.mk.inj hpq).1 hshape
  exact Table.ext_entries (List.map_injective_iff.mpr hmember (Value.object.inj h))

theorem Record.numberFree_toJson (r : Record) : r.toJson.NumberFree :=
  .object (List.forall_mem_cons.mpr
    ⟨.string r.name, List.forall_mem_singleton.mpr (numberFree_shapesToJson r.fields)⟩)

theorem Record.toJson_injective : Function.Injective Record.toJson := by
  intro r r' h
  simp only [toJson, Value.object.injEq, List.cons.injEq, Prod.mk.injEq, Value.string.injEq,
    true_and, and_true] at h
  have hfields := shapesToJson_injective h.2
  cases r
  cases r'
  rw [Record.mk.injEq]
  exact ⟨h.1, hfields⟩

namespace Model

/-- The texts of two models are the same exactly if the models are, and likewise for records. -/
theorem json_faithful (m m' : Model) :
    (m.toJson.pretty = m'.toJson.pretty ↔ m = m') ∧
      (m.recordsToJson.pretty = m'.recordsToJson.pretty ↔ m.records = m'.records) := by
  refine ⟨⟨fun h => ?_, fun h => by rw [h]⟩, ⟨fun h => ?_, fun h => ?_⟩⟩
  · have hjson : m.toJson = m'.toJson :=
      Value.pretty_inj (numberFree_shapesToJson m.shapes) (numberFree_shapesToJson m'.shapes) h
    have hshapes := shapesToJson_injective hjson
    cases m
    cases m'
    exact congrArg Model.mk hshapes
  · have hfree : ∀ m : Model, m.recordsToJson.NumberFree := fun m =>
      .array (List.forall_mem_map.mpr fun r _ => r.numberFree_toJson)
    have hjson := Value.array.inj (Value.pretty_inj (hfree m) (hfree m') h)
    exact List.map_injective_iff.mpr Record.toJson_injective hjson
  · rw [recordsToJson, recordsToJson, h]

end Model
end GrammarRecords
