/-
Fields of a record that is made from a shape.

The names of its fields are distinct already when they are claimed as
identifiers.  Where names are not converted, a field keeps its name unless two
names are escaped to one spelling.  Nothing is escaped if no word is reserved,
and a quoted word in Scala is told from any name without a backtick; all names
of fields are such names if the rules that the shape refers to are.
-/
import GrammarRecords.Proofs.Record
import GrammarRecords.Proofs.Render.FieldNames

namespace GrammarRecords

open Names

theorem Shape.backtick_not_mem_fieldNames {name field : String} {shape : Shape}
    (hrules : ∀ rule ∈ shape.references, '`' ∉ rule.toList)
    (h : field ∈ (shape.record name).fieldNames) : '`' ∉ field.toList := by
  obtain ⟨member, hmember, n, rfl⟩ := exists_numbered_of_mem_fieldNames h
  have hbase : '`' ∉ member.fieldName.toList := by
    rcases member.fieldName_cases with hrule | hvalue | hast
    · exact hrules _ (references_of_mem_members hmember hrule)
    · rw [hvalue]
      decide
    · rw [hast]
      decide
  rw [toList_numbered, List.mem_append, not_or]
  exact ⟨hbase, not_mem_suffix (by decide) n⟩

namespace Renderer

theorem escape_of_empty {r : Renderer} (h : r.config.keywords = .empty) (word : String) :
    r.escape word = word := by
  unfold escape
  rw [h]
  exact Keywords.escape_of_not_contains rfl

/-- Distinct names that are neither converted nor escaped to one spelling are only escaped. -/
theorem fieldNames_eq_map_escape {r : Renderer} (hdialect : r.dialect ≠ .rust) {record : Record}
    (hinj : ∀ v ∈ record.fieldNames, ∀ w ∈ record.fieldNames, r.escape v = r.escape w → v = w) :
    r.fieldNames record = record.fieldNames.map r.escape := by
  have hbase : record.fieldNames.map r.fieldBase = record.fieldNames := by
    have hid : r.fieldBase = id := by
      funext field
      unfold fieldBase
      split
      · rename_i h
        exact absurd h hdialect
      · rfl
      · rfl
    rw [hid, List.map_id]
  have hnodup : (record.fieldNames.map r.escape).Nodup :=
    List.Nodup.map_on hinj record.fields.nodup
  rw [fieldNames, identifiers_eq_claimAll, hbase]
  exact claimAll_eq_map hnodup fun name _ => List.not_mem_nil

/--
The identifiers of the record of any shape are the names of its fields, without a
suffix in addition: as they are in the generic dialect with nothing reserved, and
escaped in Scala if no rule that the shape refers to has a backtick in its name.
-/
theorem record_fields_keep_names (r : Renderer) (name : String) (shape : Shape) :
    (r.dialect = .generic → r.config.keywords = .empty →
      r.fieldNames (shape.record name) = (shape.record name).fieldNames) ∧
    (r.dialect = .scala → (∀ rule ∈ shape.references, '`' ∉ rule.toList) →
      r.fieldNames (shape.record name) =
        (shape.record name).fieldNames.map (r.config.keywords.escape .scala)) := by
  refine ⟨fun hgeneric hnone => ?_, fun hscala hrules => ?_⟩
  · have hid : r.escape = id := funext (escape_of_empty hnone)
    have hdialect : r.dialect ≠ .rust := by
      rw [hgeneric]
      decide
    rw [fieldNames_eq_map_escape hdialect fun v _ w _ h => by rwa [hid] at h, hid, List.map_id]
  · have hescape : r.escape = r.config.keywords.escape .scala := by
      funext word
      rw [escape, hscala]
    have hdialect : r.dialect ≠ .rust := by
      rw [hscala]
      decide
    rw [← hescape]
    refine fieldNames_eq_map_escape hdialect fun v hv w hw h => ?_
    rw [hescape] at h
    exact Keywords.escape_scala_injective (Shape.backtick_not_mem_fieldNames hrules hv)
      (Shape.backtick_not_mem_fieldNames hrules hw) h

/-- Fields with suffixes, of which `x1` is reserved; it is quoted and keeps its suffix. -/
theorem record_fields_keep_names_suffixed :
    (∀ rule ∈ Shape.suffixedNames.references, '`' ∉ rule.toList) ∧
      (ofConfig .default).fieldNames (Shape.suffixedNames.record "r") =
        ["x", "x2", "x1", "x3", "x21"] ∧
      (ofConfig ((RenderConfig.default.withDialect .scala).reserve ["x1"])).fieldNames
        (Shape.suffixedNames.record "r") = ["x", "x2", "`x1`", "x3", "x21"] := by
  have hrules : ∀ rule ∈ Shape.suffixedNames.references, '`' ∉ rule.toList := by decide +kernel
  refine ⟨hrules, ?_, ?_⟩
  · rw [(record_fields_keep_names _ _ _).1 rfl rfl]
    decide +kernel
  · rw [(record_fields_keep_names _ _ _).2 rfl hrules]
    decide +kernel

end Renderer
end GrammarRecords
