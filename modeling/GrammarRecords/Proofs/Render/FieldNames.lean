/-
Field identifiers of a rendered record.

Identifiers are claimed from left to right, each against those before it.  The
claim search gives what one field gets (`IdentifierAfter`); the induction over
the fields keeps the list of taken names equal to the identifiers written so
far, which are therefore distinct.  There is one identifier for each field, so
pairing them with the types drops nothing.  Suffixes have no end here; with a
counter of 32 bits this is so for fewer than `2 ^ 31 - 1` fields.
-/
import GrammarRecords.Proofs.Render.Escaping

namespace GrammarRecords
namespace Renderer

open Names

/-! ## The identifiers -/

/--
What a field is called behind the identifiers `before`: its converted name,
escaped, or if that is taken the converted name with the least suffix from one
on whose escaped form is free.
-/
def IdentifierAfter (r : Renderer) (before : List String) (field identifier : String) : Prop :=
  (r.escape (r.fieldBase field) ∉ before ∧ identifier = r.escape (r.fieldBase field)) ∨
    (r.escape (r.fieldBase field) ∈ before ∧ ∃ n, 1 ≤ n ∧
      identifier = r.escape (r.fieldBase field ++ toString n) ∧
      r.escape (r.fieldBase field ++ toString n) ∉ before ∧
      ∀ m, 1 ≤ m → m < n → r.escape (r.fieldBase field ++ toString m) ∈ before)

/-- The identifier of the first field, when `taken` holds what came before. -/
def identifierOf (r : Renderer) (taken : List String) (field : String) : String :=
  (claim taken r.escape (r.fieldBase field)).1

theorem identifiers_cons (r : Renderer) (taken : List String) (field : String)
    (rest : List String) :
    r.identifiers taken (field :: rest) =
      r.identifierOf taken field :: r.identifiers (r.identifierOf taken field :: taken) rest := rfl

theorem identifierAfter_identifierOf (r : Renderer) (taken : List String) (field : String) :
    r.IdentifierAfter taken field (r.identifierOf taken field) := by
  rcases claim_cases r.separates_escape taken (r.fieldBase field) with h | ⟨htaken, n, h⟩
  · exact Or.inl h
  · exact Or.inr ⟨htaken, n, h⟩

theorem identifierAfter_congr {r : Renderer} {before before' : List String}
    (h : ∀ x, x ∈ before ↔ x ∈ before') {field identifier : String}
    (hid : r.IdentifierAfter before field identifier) :
    r.IdentifierAfter before' field identifier := by
  unfold IdentifierAfter at hid ⊢
  simp only [h] at hid
  exact hid

theorem identifiers_eq_claimAll (r : Renderer) (taken fields : List String) :
    r.identifiers taken fields = claimAll r.escape taken (fields.map r.fieldBase) := by
  induction fields generalizing taken with
  | nil => rfl
  | cons field rest ih => rw [identifiers_cons, ih, List.map_cons, claimAll, identifierOf]

@[simp] theorem length_identifiers (r : Renderer) (taken fields : List String) :
    (r.identifiers taken fields).length = fields.length := by
  rw [identifiers_eq_claimAll, length_claimAll, List.length_map]

theorem exists_numbered_of_mem_identifiers {r : Renderer} {taken fields : List String}
    {identifier : String} (h : identifier ∈ r.identifiers taken fields) :
    ∃ field ∈ fields, ∃ n, identifier = r.escape (numbered (r.fieldBase field) n) := by
  rw [identifiers_eq_claimAll] at h
  obtain ⟨base, hbase, hn⟩ := exists_numbered_of_mem_claimAll h
  obtain ⟨field, hfield, rfl⟩ := List.mem_map.mp hbase
  exact ⟨field, hfield, hn⟩

theorem nodup_identifiers (r : Renderer) (taken fields : List String) :
    (r.identifiers taken fields).Nodup := by
  rw [identifiers_eq_claimAll]
  exact nodup_claimAll r.separates_escape taken _

/-- Each identifier is claimed against those before it and the names taken at the start. -/
theorem identifiers_getElem? {r : Renderer} {taken fields : List String} {i : Nat}
    {field : String} (h : fields[i]? = some field) :
    (r.identifiers taken fields)[i]? =
      some (r.identifierOf (((r.identifiers taken fields).take i).reverse ++ taken) field) := by
  have hbase : (fields.map r.fieldBase)[i]? = some (r.fieldBase field) := by
    rw [List.getElem?_map, h]
    rfl
  rw [identifiers_eq_claimAll, claimAll_getElem? hbase]
  rfl

/-! ## The declaration -/

/-- The text of a declaration, given the fields with their types. -/
def declaration (r : Renderer) (name : String) (fields : List (String × String)) : String :=
  let palette := r.config.palette
  let typeName := palette.paintName (r.typeName name)
  let inline := ", ".intercalate (fields.map fun f => f.1 ++ ": " ++ f.2)
  match r.dialect with
  | .generic => palette.paintKeyword "record" ++ " " ++ typeName ++ "(" ++ inline ++ ")"
  | .scala => palette.paintKeyword "case class" ++ " " ++ typeName ++ " (" ++ inline ++ ")"
  | .rust =>
      r.deriveLine ++ palette.paintKeyword "pub struct" ++ " " ++ typeName ++ " \x7b\n" ++
        String.join (fields.map fun f =>
          "    " ++ palette.paintKeyword "pub" ++ " " ++ f.1 ++ ": " ++ f.2 ++ ",\n") ++ "\x7d"

theorem record_eq_declaration (r : Renderer) (record : Record) :
    r.record record = r.declaration record.name (r.typedFields record) := by
  unfold Renderer.record declaration
  cases r.dialect with
  | generic =>
      show r.inlineRecord record "record" "" = _
      rw [inlineRecord, String.append_empty]
  | scala =>
      have hgap : ∀ front : String, front ++ " " ++ "(" = front ++ " (" := fun front => by
        rw [String.append_assoc]
        rfl
      show r.inlineRecord record "case class" " " = _
      rw [inlineRecord, hgap]
  | rust => rfl

theorem length_fieldNames (r : Renderer) (record : Record) :
    (r.fieldNames record).length = record.fields.size := by
  unfold fieldNames
  rw [length_identifiers]
  exact List.length_map Prod.fst

theorem typedFields_fst (r : Renderer) (record : Record) :
    (r.typedFields record).map Prod.fst = r.fieldNames record := by
  refine List.map_fst_zip (Nat.le_of_eq ?_)
  rw [length_fieldNames, List.length_map]
  exact (List.length_map Prod.snd).symm

theorem typedFields_snd (r : Renderer) (record : Record) :
    (r.typedFields record).map Prod.snd = record.fields.values.map r.shape := by
  refine List.map_snd_zip (Nat.le_of_eq ?_)
  rw [length_fieldNames, List.length_map]
  exact List.length_map Prod.snd

/--
A record is printed with one identifier for each field, in order and all
distinct, each the least free spelling behind those before it, and each with
the type of its own field.
-/
theorem field_identifiers (r : Renderer) (record : Record) :
    (r.fieldNames record).length = record.fields.size ∧
    (r.fieldNames record).Nodup ∧
    (∀ i field, record.fieldNames[i]? = some field → ∃ identifier,
      (r.fieldNames record)[i]? = some identifier ∧
        r.IdentifierAfter ((r.fieldNames record).take i) field identifier) ∧
    (r.typedFields record).map Prod.fst = r.fieldNames record ∧
    (r.typedFields record).map Prod.snd = record.fields.values.map r.shape ∧
    r.record record = r.declaration record.name (r.typedFields record) := by
  refine ⟨r.length_fieldNames record, r.nodup_identifiers [] _, ?_, r.typedFields_fst record,
    r.typedFields_snd record, r.record_eq_declaration record⟩
  intro i field hfield
  refine ⟨_, identifiers_getElem? hfield, ?_⟩
  refine identifierAfter_congr (fun x => ?_) (r.identifierAfter_identifierOf _ field)
  rw [List.append_nil, List.mem_reverse]
  rfl

/-- Reserving `node` moves that field onto the name of the next. -/
theorem field_identifiers_node :
    (ofConfig (RenderConfig.default.reserve ["node"])).fieldNames
        ⟨"r", .ofList [("node", .empty), ("node_", .rule "a")]⟩ = ["node_", "node_1"] ∧
      (ofConfig (RenderConfig.default.reserve ["node"])).IdentifierAfter ["node_"]
        "node_" "node_1" := by
  have hnames : (ofConfig (RenderConfig.default.reserve ["node"])).fieldNames
      ⟨"r", .ofList [("node", .empty), ("node_", .rule "a")]⟩ = ["node_", "node_1"] := by
    decide +kernel
  obtain ⟨identifier, hid, hafter⟩ :=
    (field_identifiers (ofConfig (RenderConfig.default.reserve ["node"]))
      ⟨"r", .ofList [("node", .empty), ("node_", .rule "a")]⟩).2.2.1 1 "node_" (by decide +kernel)
  rw [hnames] at hid hafter
  obtain rfl : "node_1" = identifier := Option.some.inj hid
  exact ⟨hnames, hafter⟩

end Renderer
end GrammarRecords
