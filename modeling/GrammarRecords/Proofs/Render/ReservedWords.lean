/-
Reserved words among the rendered identifiers.

Every type name and every field identifier is the escape of a converted name,
since a suffix can be put on before the conversion as well as behind it.  An
escape is made once: it is a reserved word exactly if it was made for a
reserved word and the spelling it gives is reserved too.  Whether that happens
therefore depends on the configuration alone, and `avoidsReserved_iff` says for
which configurations it never does, among them all whose reserved words consist
of letters, as those of the dialects do.
-/
import GrammarRecords.Proofs.Render.FieldNames
import GrammarRecords.Proofs.Render.Vocabulary
import GrammarRecords.Proofs.Text.Case

namespace GrammarRecords

open Names

/-! ## Escapes that are reserved -/

namespace Keywords

theorem contains_iff {ks : Keywords} {word : String} :
    ks.contains word = true ↔ word ∈ ks.words := decide_eq_true_iff

theorem mem_of_escape_mem {dialect : Dialect} {ks : Keywords} {word : String}
    (h : escape dialect ks word ∈ ks.words) : word ∈ ks.words := by
  by_contra hword
  have hfree : ks.contains word = false := decide_eq_false hword
  rw [escape_of_not_contains hfree] at h
  exact hword h

theorem escape_ne_self {dialect : Dialect} {ks : Keywords} {word : String}
    (h : word ∈ ks.words) : escape dialect ks word ≠ word := by
  intro he
  have hlength := congrArg String.length he
  unfold escape at hlength
  rw [if_pos (contains_iff.mpr h)] at hlength
  cases dialect with
  | generic => simp [String.length_append] at hlength
  | scala =>
      simp only [String.length_append] at hlength
      have hquote : "`".length = 1 := rfl
      omega
  | rust =>
      simp only at hlength
      split at hlength
      · simp [String.length_append] at hlength
      · simp [String.length_append] at hlength

/-- Among words of letters no escape is reserved, because each adds another character. -/
theorem escape_not_mem_of_letters {dialect : Dialect} {ks : Keywords}
    (hletters : ∀ word ∈ ks.words, ∀ c ∈ word.toList, c.isAlpha = true) (word : String) :
    escape dialect ks word ∉ ks.words := by
  intro h
  have hself : word = escape dialect ks word :=
    eq_of_escape_eq_letters (hletters _ h) rfl
  exact escape_ne_self (mem_of_escape_mem h) hself.symm

theorem isAlpha_of_mem_ofDialect {dialect : Dialect} {word : String}
    (h : word ∈ (ofDialect dialect).words) : ∀ c ∈ word.toList, c.isAlpha = true := by
  have hall : ∀ word ∈ javaWords ++ scalaWords ++ scalaParserNames ++ rustWords,
      word.toList.all Char.isAlpha = true := by decide +kernel
  refine List.all_eq_true.mp (hall word ?_)
  cases dialect with
  | generic => exact absurd h List.not_mem_nil
  | scala =>
      have hmem := (contains_ofList _ word).symm.trans (contains_iff.mpr h)
      exact List.mem_append_left _ (of_decide_eq_true hmem)
  | rust =>
      have hmem := (contains_ofList _ word).symm.trans (contains_iff.mpr h)
      exact List.mem_append_right _ (of_decide_eq_true hmem)

end Keywords

/-! ## Identifiers as escapes -/

namespace Renderer

theorem typeBase_numbered (r : Renderer) (rule : String) (n : Nat) :
    r.typeBase (numbered rule n) = numbered (r.typeBase rule) n := by
  unfold typeBase
  cases r.dialect with
  | generic => rfl
  | scala => rfl
  | rust => exact Text.pascalCase_numbered rule n

theorem fieldBase_numbered (r : Renderer) (field : String) (n : Nat) :
    r.fieldBase (numbered field n) = numbered (r.fieldBase field) n := by
  unfold fieldBase
  cases r.dialect with
  | generic => rfl
  | scala => rfl
  | rust => exact Text.snakeCase_numbered field n

theorem exists_typeName_eq_escape (config : RenderConfig) (batches : List (List String))
    (rule : String) : ∃ name, (afterBatches config batches).typeName rule =
      (ofConfig config).escape ((ofConfig config).typeBase name) := by
  have hnamed := named_afterBatches config batches
  have hcandidate : ∀ n, (afterBatches config batches).candidate rule n =
      (ofConfig config).escape ((ofConfig config).typeBase (numbered rule n)) := by
    intro n
    rw [afterBatches_eq, candidate_withRules, typeBase_numbered]
    rfl
  by_cases hrule : rule ∈ batches.flatten
  · obtain ⟨n, hn, -⟩ := hnamed.first_free rule hrule
    exact ⟨numbered rule n, hn.trans (hcandidate n)⟩
  · exact ⟨numbered rule 0, (hnamed.plain_of_not_mem rule hrule).trans (hcandidate 0)⟩

theorem exists_eq_escape_of_mem_identifiers {r : Renderer} {taken fields : List String}
    {identifier : String} (h : identifier ∈ r.identifiers taken fields) :
    ∃ name, identifier = r.escape (r.fieldBase name) := by
  obtain ⟨field, -, n, hn⟩ := exists_numbered_of_mem_identifiers h
  exact ⟨numbered field n, by rw [fieldBase_numbered, hn]⟩

theorem exists_fieldName_eq_escape {config : RenderConfig} {batches : List (List String)}
    {record : Record} {identifier : String}
    (h : identifier ∈ (afterBatches config batches).fieldNames record) :
    ∃ name, identifier = (ofConfig config).escape ((ofConfig config).fieldBase name) := by
  obtain ⟨name, hname⟩ := exists_eq_escape_of_mem_identifiers h
  refine ⟨name, hname.trans ?_⟩
  unfold escape fieldBase dialect
  rw [config_afterBatches]
  rfl

end Renderer

/-! ## Configurations -/

namespace RenderConfig

open Renderer

/-- No type name and no field identifier is reserved, whatever is registered and rendered. -/
def AvoidsReserved (config : RenderConfig) : Prop :=
  ∀ (batches : List (List String)) (record : Record),
    (∀ rule, (afterBatches config batches).typeName rule ∉ config.keywords.words) ∧
    (∀ identifier ∈ (afterBatches config batches).fieldNames record,
      identifier ∉ config.keywords.words)

/-- The word is what the dialect makes of the name of some rule or field. -/
def Converts (config : RenderConfig) (word : String) : Prop :=
  ∃ name, (ofConfig config).typeBase name = word ∨ (ofConfig config).fieldBase name = word

theorem converts_of_ne_rust {config : RenderConfig} (h : config.dialect ≠ .rust)
    (word : String) : config.Converts word :=
  ⟨word, Or.inl (typeBase_of_ne_rust (r := ofConfig config) h word)⟩

/-- One rule and one field are enough to render what a name converts to. -/
theorem AvoidsReserved.escape_not_mem {config : RenderConfig} (h : config.AvoidsReserved)
    {word : String} (hword : config.Converts word) :
    config.keywords.escape config.dialect word ∉ config.keywords.words := by
  obtain ⟨name, rfl | rfl⟩ := hword
  · exact (h [] ⟨name, .empty⟩).1 name
  · have hfields := (h [] ⟨name, Table.empty.insert name .empty⟩).2
    exact hfields _ List.mem_cons_self

/--
The reserved words are avoided exactly if every reserved word that a name can
convert to is escaped to a word that is not reserved.  Outside of Rust every
word is a name, and words of letters only are always avoided.
-/
theorem avoidsReserved_iff (config : RenderConfig) :
    (config.AvoidsReserved ↔ ∀ word ∈ config.keywords.words, config.Converts word →
      config.keywords.escape config.dialect word ∉ config.keywords.words) ∧
    (config.dialect ≠ .rust → (config.AvoidsReserved ↔ ∀ word ∈ config.keywords.words,
      config.keywords.escape config.dialect word ∉ config.keywords.words)) ∧
    ((∀ word ∈ config.keywords.words, ∀ c ∈ word.toList, c.isAlpha = true) →
      config.AvoidsReserved) := by
  have hiff : config.AvoidsReserved ↔ ∀ word ∈ config.keywords.words, config.Converts word →
      config.keywords.escape config.dialect word ∉ config.keywords.words := by
    refine ⟨fun h word _ hword => h.escape_not_mem hword, fun h batches record => ⟨?_, ?_⟩⟩
    · intro rule hmem
      obtain ⟨name, hname⟩ := exists_typeName_eq_escape config batches rule
      rw [hname] at hmem
      exact h _ (Keywords.mem_of_escape_mem hmem) ⟨name, Or.inl rfl⟩ hmem
    · intro identifier hidentifier hmem
      obtain ⟨name, hname⟩ := exists_fieldName_eq_escape hidentifier
      rw [hname] at hmem
      exact h _ (Keywords.mem_of_escape_mem hmem) ⟨name, Or.inr rfl⟩ hmem
  refine ⟨hiff, fun hdialect => hiff.trans ?_, fun hletters => hiff.mpr ?_⟩
  · exact ⟨fun h word hword => h word hword (converts_of_ne_rust hdialect word),
      fun h word hword _ => h word hword⟩
  · exact fun word _ _ => Keywords.escape_not_mem_of_letters hletters word

/-- The reserved words of Rust with one more, which consists of letters too. -/
def nodeReserved : RenderConfig :=
  (default.withDialect .rust).reserve ["node"]

theorem avoidsReserved_iff_nodeReserved :
    (∀ word ∈ nodeReserved.keywords.words, ∀ c ∈ word.toList, c.isAlpha = true) ∧
      nodeReserved.AvoidsReserved ∧
      (default.reserve ["`type`", "type_"]).AvoidsReserved := by
  have hletters : ∀ word ∈ nodeReserved.keywords.words, ∀ c ∈ word.toList, c.isAlpha = true := by
    intro word hword
    have hmem := (Keywords.contains_insertAll _ _ word).symm.trans (Keywords.contains_iff.mpr hword)
    rcases (Bool.or_eq_true _ _).mp hmem with hnode | hrust
    · have hall : "node".toList.all Char.isAlpha = true := by decide +kernel
      rw [List.mem_singleton.mp (of_decide_eq_true hnode)]
      exact List.all_eq_true.mp hall
    · exact Keywords.isAlpha_of_mem_ofDialect (Keywords.contains_iff.mp hrust)
  have hgeneric : ∀ word ∈ (default.reserve ["`type`", "type_"]).keywords.words,
      Keywords.escape .generic (default.reserve ["`type`", "type_"]).keywords word ∉
        (default.reserve ["`type`", "type_"]).keywords.words := by decide +kernel
  exact ⟨hletters, (avoidsReserved_iff nodeReserved).2.2 hletters,
    ((avoidsReserved_iff (default.reserve ["`type`", "type_"])).2.1 (by decide)).mpr hgeneric⟩

/-- With `node` and `node_` reserved, the first is still written like the second. -/
theorem not_avoidsReserved_node :
    (afterBatches (default.reserve ["node", "node_"]) []).typeName "node" = "node_" ∧
      ¬ (default.reserve ["node", "node_"]).AvoidsReserved := by
  have hname : (afterBatches (default.reserve ["node", "node_"]) []).typeName "node" = "node_" := by
    decide +kernel
  refine ⟨hname, fun h => (h [] ⟨"node", .empty⟩).1 "node" ?_⟩
  rw [hname]
  decide +kernel

end RenderConfig
end GrammarRecords
