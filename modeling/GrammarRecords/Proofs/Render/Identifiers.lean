/-
Identifiers of the Rust dialect.

A name is converted, a suffix may be put behind it, and what is reserved is
escaped.  A suffix never changes whether a name is an identifier, and an escape
is made for reserved words only, which are identifiers, and gives one again.  So
it is the conversion that decides.  A struct has a name that can stand in a
declaration exactly if the first character of the rule that is no underscore is
a letter; a field has one unless it is called `_`.  `writesIdentifiers_iff` says
for which models the whole text has identifiers where it needs them.
-/
import GrammarRecords.Proofs.Record
import GrammarRecords.Proofs.Render.Containment
import GrammarRecords.Proofs.Render.ReservedWords
import GrammarRecords.Proofs.Text.Identifier
import Mathlib.Data.List.Forall2

namespace GrammarRecords

open Names Text

theorem forall_mem_iff_of_forall₂ {α β : Type} {P : α → Prop} {Q : β → Prop} {as : List α}
    {bs : List β} (h : List.Forall₂ (fun a b => Q b ↔ P a) as bs) :
    (∀ b ∈ bs, Q b) ↔ ∀ a ∈ as, P a := by
  induction h with
  | nil => exact iff_of_true (List.forall_mem_nil Q) (List.forall_mem_nil P)
  | cons hab _ ih => rw [List.forall_mem_cons, List.forall_mem_cons, hab, ih]

/-! ## What can stand in a declaration -/

/-- An identifier that is not reserved, or a raw one.  A lone underscore is neither. -/
def IsRustIdentifier (name : String) : Prop :=
  (IsIdentifier name ∧ name ≠ "_" ∧ name ∉ Keywords.rustWords) ∨
    ∃ word, name = "r#" ++ word ∧ IsIdentifier word ∧ word ≠ "_" ∧ word ∉ Keywords.rustUnrawable

theorem numbered_eq_underscore_iff {base : String} {n : Nat} :
    numbered base n = "_" ↔ base = "_" ∧ n = 0 :=
  numbered_eq_iff_of_no_digit (List.forall_mem_singleton.mpr rfl)

theorem not_isRustIdentifier_underscore : ¬ IsRustIdentifier "_" := by
  rintro (⟨-, hne, -⟩ | ⟨word, hword, -⟩)
  · exact hne rfl
  · have hhash := hash_mem_raw word
    rw [← hword] at hhash
    exact absurd hhash (by decide)

namespace Keywords

theorem contains_ofDialect_rust (word : String) :
    (ofDialect .rust).contains word = true ↔ word ∈ rustWords := by
  rw [ofDialect, contains_ofList, decide_eq_true_iff]

theorem isAlpha_of_mem_rustWords {word : String} (h : word ∈ rustWords) :
    ∀ c ∈ word.toList, c.isAlpha = true :=
  isAlpha_of_mem_ofDialect (contains_iff.mp ((contains_ofDialect_rust word).mpr h))

theorem isIdentifier_of_mem_rustWords {word : String} (h : word ∈ rustWords) :
    IsIdentifier word ∧ word ≠ "_" := by
  have hletters := isAlpha_of_mem_rustWords h
  refine ⟨isIdentifier_of_letters hletters fun hnil => ?_, ?_⟩
  · have hempty : "" ∉ rustWords := by simp [rustWords]
    exact hempty (String.toList_eq_nil_iff.mp hnil ▸ h)
  · rintro rfl
    exact absurd (hletters '_' List.mem_cons_self) (by decide)

/-- Behind a reserved word an underscore makes another identifier, which is not reserved. -/
theorem append_underscore_of_mem_rustWords {word : String} (h : word ∈ rustWords) :
    IsIdentifier (word ++ "_") ∧ word ++ "_" ≠ "_" ∧ word ++ "_" ∉ rustWords := by
  have hword := (isIdentifier_of_mem_rustWords h).1
  refine ⟨hword.append rfl, fun he => ?_, fun hmem => ?_⟩
  · rw [String.append_eq_right_iff.mp he] at hword
    exact absurd hword.1 Bool.false_ne_true
  · refine absurd (isAlpha_of_mem_rustWords hmem '_' ?_) (by decide)
    rw [String.toList_append]
    exact List.mem_append_right _ List.mem_cons_self

theorem isRustIdentifier_escape_of_mem {word : String} (h : word ∈ rustWords) :
    IsRustIdentifier ((ofDialect .rust).escape .rust word) := by
  obtain ⟨hword, hne⟩ := isIdentifier_of_mem_rustWords h
  unfold escape
  rw [if_pos ((contains_ofDialect_rust word).mpr h)]
  simp only
  split
  · rename_i hraw
    exact Or.inr ⟨word, rfl, hword, hne, hraw.1⟩
  · exact Or.inl (append_underscore_of_mem_rustWords h)

/-- An escape does not help a word that is no identifier, for it is not made. -/
theorem isRustIdentifier_escape_iff {word : String}
    (hchars : ∀ c ∈ word.toList, isNameChar c = true) :
    IsRustIdentifier ((ofDialect .rust).escape .rust word) ↔ IsIdentifier word ∧ word ≠ "_" := by
  by_cases hword : word ∈ rustWords
  · exact iff_of_true (isRustIdentifier_escape_of_mem hword) (isIdentifier_of_mem_rustWords hword)
  · have hfree : (ofDialect .rust).contains word = false := by
      rw [Bool.eq_false_iff, ne_eq, contains_ofDialect_rust]
      exact hword
    rw [escape_of_not_contains hfree]
    constructor
    · rintro (⟨hid, hne, -⟩ | ⟨raw, hraw, -⟩)
      · exact ⟨hid, hne⟩
      · have hhash := hchars '#' (hraw ▸ hash_mem_raw raw)
        exact absurd hhash (by decide)
    · rintro ⟨hid, hne⟩
      exact Or.inl ⟨hid, hne, hword⟩

end Keywords

/-! ## Names of the renderer -/

namespace Renderer

variable {r : Renderer} (hdialect : r.dialect = .rust)
  (hkeywords : r.config.keywords = .ofDialect .rust)

include hdialect hkeywords

/-- A candidate is an identifier if its base is; only a lone underscore is in its own way. -/
theorem isRustIdentifier_escape_numbered_iff {base : String}
    (hchars : ∀ c ∈ base.toList, isNameChar c = true) (n : Nat) :
    IsRustIdentifier (r.escape (numbered base n)) ↔ IsIdentifier base ∧ ¬ (base = "_" ∧ n = 0) := by
  have hall : ∀ c ∈ (numbered base n).toList, isNameChar c = true := by
    intro c hc
    rw [toList_numbered] at hc
    rcases List.mem_append.mp hc with hbase | hsuffix
    · exact hchars c hbase
    · exact isNameChar_of_isDigit (isDigit_of_mem_suffix hsuffix)
  unfold escape
  rw [hdialect, hkeywords, Keywords.isRustIdentifier_escape_iff hall, isIdentifier_numbered_iff,
    ne_eq, numbered_eq_underscore_iff]

theorem isRustIdentifier_candidate_iff {rule : String} (h : IsIdentifier rule) (n : Nat) :
    IsRustIdentifier (r.candidate rule n) ↔ LeadsWithLetter rule := by
  have halphanum := isAlphanum_of_mem_pascalCase h
  have hbase : r.typeBase rule = pascalCase rule := by rw [typeBase, hdialect]
  have hline : pascalCase rule ≠ "_" := by
    intro he
    exact absurd (halphanum '_' (he ▸ by decide)) (by decide)
  rw [candidate, hbase, isRustIdentifier_escape_numbered_iff hdialect hkeywords
    (fun c hc => isNameChar_of_isAlphanum (halphanum c hc)), isIdentifier_pascalCase_iff h]
  exact and_iff_left fun hboth => hline hboth.1

theorem isRustIdentifier_typeName_iff {rules : List String} (hnamed : r.Named rules)
    {rule : String} (h : IsIdentifier rule) :
    IsRustIdentifier (r.typeName rule) ↔ LeadsWithLetter rule := by
  by_cases hrule : rule ∈ rules
  · obtain ⟨n, hn, -⟩ := hnamed.first_free rule hrule
    rw [hn]
    exact isRustIdentifier_candidate_iff hdialect hkeywords h n
  · rw [hnamed.plain_of_not_mem rule hrule]
    exact isRustIdentifier_candidate_iff hdialect hkeywords h 0

/-- The lone underscore is not taken before its own field, so that field gets no suffix. -/
theorem isRustIdentifier_identifierOf_iff {taken : List String} {field : String}
    (h : IsIdentifier field) (hfree : field = "_" → "_" ∉ taken) :
    (IsRustIdentifier (r.identifierOf taken field) ↔ field ≠ "_") ∧
      (r.identifierOf taken field = "_" → field = "_") := by
  have hbase : r.fieldBase field = snakeCase field := by rw [fieldBase, hdialect]
  have hsnake := isIdentifier_snakeCase h
  obtain ⟨n, hn, hbelow⟩ := claim_numbered r.separates_escape taken (r.fieldBase field)
  have hname : r.identifierOf taken field = r.escape (numbered (snakeCase field) n) :=
    hbase ▸ hn
  have hiff : IsRustIdentifier (r.identifierOf taken field) ↔ field ≠ "_" := by
    rw [hname, isRustIdentifier_escape_numbered_iff hdialect hkeywords hsnake.isNameChar_of_mem,
      snakeCase_eq_underscore_iff h, and_iff_right hsnake]
    refine not_congr (and_iff_left_of_imp ?_)
    rintro rfl
    by_contra hpos
    have htaken := hbelow 0 (Nat.pos_of_ne_zero hpos)
    have hunreserved : (Keywords.ofDialect .rust).contains "_" = false := by
      rw [Bool.eq_false_iff, ne_eq, Keywords.contains_ofDialect_rust]
      decide
    have hplain : r.escape "_" = "_" := by
      rw [escape, hkeywords, Keywords.escape_of_not_contains hunreserved]
    have hself : numbered (r.fieldBase "_") 0 = "_" := hbase.trans (by decide)
    rw [hself, hplain] at htaken
    exact hfree rfl htaken
  refine ⟨hiff, fun hline => ?_⟩
  by_contra hne
  exact not_isRustIdentifier_underscore (hline ▸ hiff.mpr hne)

theorem forall₂_isRustIdentifier_identifiers {taken fields : List String}
    (hfields : ∀ field ∈ fields, IsIdentifier field) (hnodup : fields.Nodup)
    (hfree : "_" ∈ fields → "_" ∉ taken) :
    List.Forall₂ (fun field identifier => IsRustIdentifier identifier ↔ field ≠ "_") fields
      (r.identifiers taken fields) := by
  induction fields generalizing taken with
  | nil => exact .nil
  | cons field rest ih =>
      obtain ⟨hfield, hrest⟩ := List.forall_mem_cons.mp hfields
      obtain ⟨hnew, hnodup⟩ := List.nodup_cons.mp hnodup
      have hself : field = "_" → "_" ∉ taken := by
        rintro rfl
        exact hfree List.mem_cons_self
      obtain ⟨hiff, hline⟩ := isRustIdentifier_identifierOf_iff hdialect hkeywords hfield hself
      rw [identifiers_cons]
      refine .cons hiff (ih hrest hnodup fun hmem htaken => ?_)
      rcases List.mem_cons.mp htaken with he | hbefore
      · exact hnew (hline he.symm ▸ hmem)
      · exact hfree (List.mem_cons_of_mem field hmem) hbefore

end Renderer

/-! ## Fields of a record -/

namespace Shape

theorem isIdentifier_of_mem_fieldNames {name field : String} {shape : Shape}
    (hnames : ∀ rule ∈ shape.references, IsIdentifier rule)
    (h : field ∈ (shape.record name).fieldNames) : IsIdentifier field := by
  obtain ⟨member, hmember, n, rfl⟩ := exists_numbered_of_mem_fieldNames h
  rw [isIdentifier_numbered_iff]
  rcases member.fieldName_cases with hrule | hvalue | hast
  · exact hnames _ (references_of_mem_members hmember hrule)
  · rw [hvalue]; decide
  · rw [hast]; decide

theorem underscore_mem_fieldNames_iff {name : String} {shape : Shape} :
    "_" ∈ (shape.record name).fieldNames ↔ ∃ member ∈ shape.members, member.fieldName = "_" := by
  constructor
  · intro h
    obtain ⟨member, hmember, n, hn⟩ := exists_numbered_of_mem_fieldNames h
    have hbase := numbered_eq_underscore_iff.mp hn.symm
    exact ⟨member, hmember, hbase.1⟩
  · rintro ⟨member, hmember, he⟩
    exact he ▸ fieldName_mem_fieldNames hmember name

end Shape

/-! ## Models -/

namespace Model

/-- Every rule that is declared or referred to has a name of letters, digits and underscores. -/
structure NamesIdentifiers (m : Model) : Prop where
  declared : ∀ rule ∈ m.rules, IsIdentifier rule
  referenced : ∀ rule ∈ m.allReferences, IsIdentifier rule

/-- Each struct and each field has a name that can stand where it is declared. -/
def WritesIdentifiers (m : Model) (config : RenderConfig) : Prop :=
  ∀ record ∈ m.records,
    IsRustIdentifier ((m.renderer config).typeName record.name) ∧
      ∀ identifier ∈ (m.renderer config).fieldNames record, IsRustIdentifier identifier

variable {m : Model} {config : RenderConfig} (hdialect : config.dialect = .rust)
  (hkeywords : config.keywords = .ofDialect .rust) (hnames : m.NamesIdentifiers)

include hdialect hkeywords hnames

theorem isRustIdentifier_structName_iff {record : Record} (h : record ∈ m.records) :
    IsRustIdentifier ((m.renderer config).typeName record.name) ↔ LeadsWithLetter record.name := by
  obtain ⟨p, hp, rfl⟩ := List.mem_map.mp h
  refine Renderer.isRustIdentifier_typeName_iff ?_ ?_ (named_renderer m config)
    (hnames.declared p.1 (List.mem_map_of_mem hp))
  · rw [dialect_renderer, hdialect]
  · rw [config_renderer, hkeywords]

theorem isRustIdentifier_fieldNames_iff {record : Record} (h : record ∈ m.records) :
    List.Forall₂ (fun field identifier => IsRustIdentifier identifier ↔ field ≠ "_")
      record.fieldNames ((m.renderer config).fieldNames record) := by
  obtain ⟨p, hp, rfl⟩ := List.mem_map.mp h
  refine Renderer.forall₂_isRustIdentifier_identifiers ?_ ?_ (fun field hfield => ?_)
    (p.2.record p.1).fields.nodup fun _ => List.not_mem_nil
  · rw [dialect_renderer, hdialect]
  · rw [config_renderer, hkeywords]
  · refine Shape.isIdentifier_of_mem_fieldNames (fun rule hrule => ?_) hfield
    exact hnames.referenced rule (List.mem_flatMap.mpr ⟨p.2, List.mem_map_of_mem hp, hrule⟩)

omit hdialect hkeywords hnames

theorem underscore_mem_fieldNames_iff :
    (∀ record ∈ m.records, "_" ∉ record.fieldNames) ↔
      ∀ shape ∈ m.shapes.values, ∀ member ∈ shape.members, member.fieldName ≠ "_" := by
  unfold records Table.values
  simp only [List.forall_mem_map, Shape.underscore_mem_fieldNames_iff, not_exists, not_and, ne_eq]

/--
Of the names that are identifiers, a struct's is one in Rust exactly if it leads
with a letter, and a field's is one unless it is a lone underscore.  So all of them
are exactly if every declared rule leads with a letter and no member is
called `_`.
-/
theorem writesIdentifiers_iff (m : Model) {config : RenderConfig}
    (hdialect : config.dialect = .rust) (hkeywords : config.keywords = .ofDialect .rust)
    (hnames : m.NamesIdentifiers) :
    (∀ record ∈ m.records,
      (IsRustIdentifier ((m.renderer config).typeName record.name) ↔
        LeadsWithLetter record.name) ∧
      List.Forall₂ (fun field identifier => IsRustIdentifier identifier ↔ field ≠ "_")
        record.fieldNames ((m.renderer config).fieldNames record)) ∧
    (m.WritesIdentifiers config ↔
      (∀ rule ∈ m.rules, LeadsWithLetter rule) ∧
      ∀ shape ∈ m.shapes.values, ∀ member ∈ shape.members, member.fieldName ≠ "_") := by
  have hstruct := fun record (h : record ∈ m.records) =>
    isRustIdentifier_structName_iff hdialect hkeywords hnames h
  have hfields := fun record (h : record ∈ m.records) =>
    isRustIdentifier_fieldNames_iff hdialect hkeywords hnames h
  refine ⟨fun record h => ⟨hstruct record h, hfields record h⟩, ?_⟩
  have hrules : (∀ record ∈ m.records, LeadsWithLetter record.name) ↔
      ∀ rule ∈ m.rules, LeadsWithLetter rule := by
    unfold records rules Table.keys
    rw [List.forall_mem_map, List.forall_mem_map]
    exact Iff.rfl
  rw [← hrules, ← underscore_mem_fieldNames_iff, ← forall₂_and]
  refine forall₂_congr fun record h => and_congr (hstruct record h) ?_
  rw [forall_mem_iff_of_forall₂ (hfields record h)]
  exact List.forall_mem_ne'

/-- A reserved word, the hidden rule behind it, and fields that need an escape or keep a digit. -/
def hiddenRules : Model :=
  ofList [("type", .sequence [.rule "_type", .rule "_1", .container .optional (.rule "Self")]),
    ("_type", .empty)]

theorem writesIdentifiers_hiddenRules :
    hiddenRules.NamesIdentifiers ∧
      hiddenRules.WritesIdentifiers (RenderConfig.default.withDialect .rust) := by
  have hnames : hiddenRules.NamesIdentifiers := ⟨by decide, by decide⟩
  exact ⟨hnames, (@writesIdentifiers_iff hiddenRules (RenderConfig.default.withDialect .rust)
    rfl rfl hnames).2.mpr ⟨by decide, by decide⟩⟩

/-- A rule whose only character besides an underscore is a digit. -/
def digitRule : Model :=
  ofList [("_1", .empty)]

theorem not_writesIdentifiers_digitRule :
    digitRule.NamesIdentifiers ∧
      ¬ digitRule.WritesIdentifiers (RenderConfig.default.withDialect .rust) := by
  have hnames : digitRule.NamesIdentifiers := ⟨by decide, by decide⟩
  have hrecord : Shape.empty.record "_1" ∈ digitRule.records := List.mem_singleton_self _
  refine ⟨hnames, fun hwrites => ?_⟩
  have hiff := @isRustIdentifier_structName_iff digitRule
    (RenderConfig.default.withDialect .rust) rfl rfl hnames _ hrecord
  have hletter : LeadsWithLetter "_1" := hiff.mp (hwrites _ hrecord).1
  exact absurd hletter (by decide)

end Model
end GrammarRecords
