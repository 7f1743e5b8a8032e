/-
Declarations without their colors.

Names do not depend on the palette, so a colored and a colorless renderer that
were prepared alike write the same names and types, and differ in the escape
sequences around some of them only (`prepared_colored`).  No name has an escape
character unless it comes from a rule or field that has one: converting,
numbering and escaping add digits, quotes, hashes and underscores.  Hence the
colored text fades to the colorless one piece by piece, for every dialect and
for the header (`colors_deleted`).
-/
import GrammarRecords.Proofs.Palette
import GrammarRecords.Proofs.Render.Containment
import GrammarRecords.Proofs.Render.FieldNames
import GrammarRecords.Proofs.Render.Vocabulary

namespace GrammarRecords

open Names Palette

/-! ## Texts without escape characters -/

namespace Palette

@[simp] theorem colorless_append {s t : String} :
    Colorless (s ++ t) ↔ Colorless s ∧ Colorless t := by
  unfold Colorless
  rw [String.toList_append, List.mem_append, not_or]

theorem colorless_of_letters {s : String} (h : ∀ c ∈ s.toList, c.isAlpha = true) :
    Colorless s := by
  intro hmem
  exact absurd (h _ hmem) (by decide)

theorem colorless_numbered {base : String} (h : Colorless base) (n : Nat) :
    Colorless (numbered base n) := by
  unfold Colorless
  rw [toList_numbered, List.mem_append, not_or]
  exact ⟨h, not_mem_suffix rfl n⟩

theorem colorless_escape {word : String} (h : Colorless word) (dialect : Dialect)
    (ks : Keywords) : Colorless (ks.escape dialect word) := by
  have hadded : Colorless "`" ∧ Colorless "r#" ∧ Colorless "_" := by decide
  rcases Keywords.escape_cases dialect ks word with he | ⟨-, he⟩ | ⟨-, he, -⟩ | ⟨-, he⟩ <;> rw [he]
  · exact h
  · exact colorless_append.mpr ⟨colorless_append.mpr ⟨hadded.1, h⟩, hadded.1⟩
  · exact colorless_append.mpr ⟨hadded.2.1, h⟩
  · exact colorless_append.mpr ⟨h, hadded.2.2⟩

end Palette

namespace Renderer

theorem colorless_candidate (r : Renderer) {rule : String} (h : Colorless rule) (n : Nat) :
    Colorless (r.candidate rule n) := by
  refine colorless_escape (colorless_numbered ?_ n) _ _
  unfold typeBase
  cases r.dialect with
  | generic => exact h
  | scala => exact h
  | rust => exact Text.not_mem_pascalCase rfl h

theorem colorless_identifiers (r : Renderer) {taken fields : List String}
    (h : ∀ field ∈ fields, Colorless field) :
    ∀ identifier ∈ r.identifiers taken fields, Colorless identifier := by
  intro identifier hidentifier
  obtain ⟨field, hfield, n, rfl⟩ := exists_numbered_of_mem_identifiers hidentifier
  refine colorless_escape (colorless_numbered ?_ n) _ _
  unfold fieldBase
  cases r.dialect with
  | generic => exact h field hfield
  | scala => exact h field hfield
  | rust => exact Text.not_mem_snakeCase rfl (by decide) (h field hfield)

/-! ## Types -/

theorem colorless_typeWord {d : Dialect} {word : String} (h : word ∈ d.typeWords) :
    Colorless word :=
  colorless_of_letters (Dialect.isAlpha_of_mem_typeWords h)

theorem colorless_punctuation (d : Dialect) :
    Colorless d.openTuple ∧ Colorless d.closeTuple ∧ Colorless d.openArguments ∧
      Colorless d.closeArguments ∧ Colorless d.sumSeparator ∧ Colorless ", " := by
  cases d <;> decide

open BinaryShape in
mutual

theorem colorless_pieces (r : Renderer) : ∀ b : BinaryShape,
    (∀ rule ∈ b.references, Colorless (r.reference rule)) →
      Colorless (r.write (b.pieces r.dialect))
  | .empty => by
      intro _
      simp only [pieces, write_word, write_nil, String.append_empty]
      exact colorless_typeWord r.dialect.scalar_mem_typeWords
  | .rule name => by
      intro h
      simp only [pieces, write_reference, write_nil, String.append_empty]
      exact h name (List.mem_singleton_self name)
  | .sequence parts => by
      intro h
      obtain ⟨hopen, hclose, -⟩ := colorless_punctuation r.dialect
      simp only [pieces, write_mark, write_append, write_nil, String.append_empty,
        colorless_append]
      exact ⟨hopen, colorless_partPieces r parts h, hclose⟩
  | .sum left right => by
      intro h
      obtain ⟨-, -, hopen, hclose, hseparator, -⟩ := colorless_punctuation r.dialect
      simp only [references, List.forall_mem_append] at h
      simp only [pieces, write_word, write_mark, write_append, write_nil, String.append_empty,
        colorless_append]
      exact ⟨colorless_typeWord r.dialect.sumName_mem_typeWords, hopen,
        colorless_pieces r left h.1, hseparator, colorless_pieces r right h.2, hclose⟩
  | .container kind inner => by
      intro h
      obtain ⟨-, -, hopen, hclose, -⟩ := colorless_punctuation r.dialect
      simp only [pieces, write_word, write_mark, write_append, write_nil, String.append_empty,
        colorless_append]
      exact ⟨colorless_typeWord (r.dialect.containerName_mem_typeWords kind), hopen,
        colorless_pieces r inner h, hclose⟩

theorem colorless_partPieces (r : Renderer) : ∀ parts : List BinaryShape,
    (∀ rule ∈ referencesOfParts parts, Colorless (r.reference rule)) →
      Colorless (r.write (partPieces r.dialect parts))
  | [] => fun _ => List.not_mem_nil
  | [part] => by
      intro h
      simp only [referencesOfParts, List.append_nil] at h
      exact colorless_pieces r part h
  | part :: next :: rest => by
      intro h
      rw [referencesOfParts, List.forall_mem_append] at h
      rw [partPieces_cons, write_append, write_mark, colorless_append, colorless_append]
      exact ⟨colorless_pieces r part h.1, (colorless_punctuation r.dialect).2.2.2.2.2,
        colorless_partPieces r (next :: rest) h.2⟩

end

theorem colorless_shape (r : Renderer) {s : Shape}
    (h : ∀ rule ∈ s.references, Colorless (r.reference rule)) : Colorless (r.shape s) := by
  rw [shape_eq_write]
  exact colorless_pieces r s.binary (by rwa [Shape.references_binary])

theorem colorless_reference {r : Renderer} {rule : String} (h : Colorless (r.typeName rule)) :
    Colorless (r.reference rule) := by
  have hpointer : ∀ i : Indirection, Colorless i.typeName ∧ Colorless "<" ∧ Colorless ">" := by
    intro i
    cases i <;> decide
  unfold reference Indirection.wrap
  split
  · simp only [colorless_append]
    obtain ⟨hname, hopen, hclose⟩ := hpointer r.config.indirection
    exact ⟨⟨⟨hname, hopen⟩, h⟩, hclose⟩
  · exact h

/-! ## Prepared renderers -/

/-- What can be told to a renderer before it writes: rules to name, or rules that are cyclic. -/
inductive Preparation where
  | rules (names : List String)
  | cyclic (names : List String)
deriving DecidableEq, Repr

def prepare (r : Renderer) : Preparation → Renderer
  | .rules names => r.withRules names
  | .cyclic names => r.withCyclic names

def prepared (config : RenderConfig) (steps : List Preparation) : Renderer :=
  steps.foldl prepare (ofConfig config)

@[simp] theorem config_prepared (config : RenderConfig) (steps : List Preparation) :
    (prepared config steps).config = config := by
  have hsteps : ∀ r : Renderer, (steps.foldl prepare r).config = r.config := by
    induction steps with
    | nil => exact fun _ => rfl
    | cons step rest ih =>
        intro r
        rw [List.foldl_cons, ih]
        cases step with
        | rules names => exact config_withRules r names
        | cyclic names => rfl
  exact hsteps (ofConfig config)

theorem firstFree_prepared (config : RenderConfig) (steps : List Preparation) :
    (prepared config steps).FirstFree := by
  have hsteps : ∀ r : Renderer, r.FirstFree → (steps.foldl prepare r).FirstFree := by
    induction steps with
    | nil => exact fun _ h => h
    | cons step rest ih =>
        intro r h
        refine ih _ ?_
        cases step with
        | rules names => exact firstFree_withRules h names
        | cyclic names => exact h
  exact hsteps _ fun _ _ hname => nomatch hname

theorem colorless_typeName {r : Renderer} (hfree : r.FirstFree) {rule : String}
    (h : Colorless rule) : Colorless (r.typeName rule) := by
  unfold typeName
  split
  · rename_i name hname
    obtain ⟨n, rfl, -⟩ := hfree rule name hname
    exact r.colorless_candidate h n
  · exact r.colorless_candidate h 0

/-! ## Two palettes -/

def colored (r : Renderer) (enabled : Bool) : Renderer :=
  { r with config := r.config.colored enabled }

theorem registerAll_colored (r : Renderer) (enabled : Bool) (used rules : List String) :
    (r.colored enabled).registerAll used rules = (r.registerAll used rules).colored enabled := by
  induction rules generalizing r used with
  | nil => rfl
  | cons rule rest ih =>
      by_cases hrule : rule ∈ r.typeNames.keys
      · have hknown : rule ∈ (r.colored enabled).typeNames.keys := hrule
        rw [registerAll_known hknown, registerAll_known hrule, ih]
      · have hnew : rule ∉ (r.colored enabled).typeNames.keys := hrule
        rw [registerAll_new hnew, registerAll_new hrule, ← ih]
        rfl

/-- Names and marks are the same with every palette. -/
theorem prepared_colored (config : RenderConfig) (enabled : Bool) (steps : List Preparation) :
    prepared (config.colored enabled) steps = (prepared config steps).colored enabled := by
  have hsteps : ∀ r : Renderer,
      steps.foldl prepare (r.colored enabled) = (steps.foldl prepare r).colored enabled := by
    induction steps with
    | nil => exact fun _ => rfl
    | cons step rest ih =>
        intro r
        have hstep : (r.colored enabled).prepare step = (r.prepare step).colored enabled := by
          cases step with
          | rules names => exact registerAll_colored r enabled _ names
          | cyclic names => rfl
        rw [List.foldl_cons, List.foldl_cons, hstep, ih]
  exact hsteps (ofConfig config)

theorem write_colored (r : Renderer) (enabled : Bool) (pieces : List Piece) :
    (r.colored enabled).write pieces = r.write pieces := by
  induction pieces with
  | nil => rfl
  | cons piece rest ih =>
      rw [write, write, ih]
      cases piece <;> rfl

@[simp] theorem shape_colored (r : Renderer) (enabled : Bool) (s : Shape) :
    (r.colored enabled).shape s = r.shape s := by
  rw [shape_eq_write, shape_eq_write, write_colored]
  rfl

theorem typedFields_colored (r : Renderer) (enabled : Bool) (record : Record) :
    (r.colored enabled).typedFields record = r.typedFields record := by
  have hnames : (r.colored enabled).fieldNames record = r.fieldNames record := by
    unfold fieldNames
    rw [identifiers_eq_claimAll, identifiers_eq_claimAll]
    rfl
  have htypes : (r.colored enabled).shape = r.shape := funext fun s => r.shape_colored enabled s
  rw [typedFields, hnames, htypes]
  rfl

end Renderer

/-! ## Records -/

/-- No name in the record has an escape character. -/
structure Record.Colorless (record : Record) : Prop where
  name : Palette.Colorless record.name
  fields : ∀ field ∈ record.fieldNames, Palette.Colorless field
  references : ∀ shape ∈ record.fields.values, ∀ rule ∈ shape.references, Palette.Colorless rule

namespace Renderer

section

variable {r : Renderer} (hfree : r.FirstFree) {record : Record} (hrecord : record.Colorless)

include hfree hrecord

theorem colorless_typedFields :
    ∀ f ∈ r.typedFields record, Colorless f.1 ∧ Colorless f.2 := by
  intro f hf
  have hname : f.1 ∈ r.fieldNames record := r.typedFields_fst record ▸ List.mem_map_of_mem hf
  have htype : f.2 ∈ record.fields.values.map r.shape :=
    r.typedFields_snd record ▸ List.mem_map_of_mem hf
  obtain ⟨shape, hshape, he⟩ := List.mem_map.mp htype
  refine ⟨r.colorless_identifiers hrecord.fields f.1 hname, ?_⟩
  rw [← he]
  refine colorless_shape r fun rule hrule => ?_
  exact colorless_reference (colorless_typeName hfree (hrecord.references shape hshape rule hrule))

theorem fades_inlineRecord {keyword gap : String} (hkeyword : Colorless keyword)
    (hgap : Colorless gap) :
    Fades ((r.colored true).inlineRecord record keyword gap)
      ((r.colored false).inlineRecord record keyword gap) := by
  have hname : Fades (r.typeName record.name) (r.typeName record.name) :=
    .of_colorless (colorless_typeName hfree hrecord.name)
  have hfields : List.Forall₂ Fades
      ((r.typedFields record).map fun f => f.1 ++ ": " ++ f.2)
      ((r.typedFields record).map fun f => f.1 ++ ": " ++ f.2) := by
    rw [List.forall₂_same, List.forall_mem_map]
    intro f hf
    obtain ⟨hfield, htype⟩ := colorless_typedFields hfree hrecord f hf
    exact ((Fades.of_colorless hfield).append_text (by decide)).append_text htype
  unfold inlineRecord
  rw [typedFields_colored, typedFields_colored]
  have hhead := (Fades.of_colorless hkeyword).paintKeyword.append_text (x := " ") (by decide)
  have hopened := ((hhead.append hname.paintName).append_text hgap).append_text (x := "(")
    (by decide)
  exact (hopened.append (.intercalate (by decide) hfields)).append_text (by decide)

section

variable (hderives : ∀ trait ∈ r.config.derives, Colorless trait)

include hderives

omit hfree hrecord in
theorem fades_deriveLine : Fades (r.colored true).deriveLine (r.colored false).deriveLine := by
  have htraits : List.Forall₂ Fades r.config.derives r.config.derives :=
    List.forall₂_same.mpr fun trait h => .of_colorless (hderives trait h)
  have hline : Fades ("#[derive(" ++ ", ".intercalate r.config.derives ++ ")]")
      ("#[derive(" ++ ", ".intercalate r.config.derives ++ ")]") :=
    ((Fades.of_colorless (by decide)).append (.intercalate (by decide) htraits)).append_text
      (by decide)
  have hsame : ∀ enabled, (r.colored enabled).config.derives = r.config.derives := fun _ => rfl
  rw [deriveLine, deriveLine, hsame, hsame]
  cases hempty : r.config.derives with
  | nil =>
      have hnothing : Palette.Colorless "" := by decide
      exact .of_colorless hnothing
  | cons trait rest =>
      rw [hempty] at hline
      exact hline.paintDim.append_text (by decide)

theorem fades_structRecord :
    Fades ((r.colored true).structRecord record) ((r.colored false).structRecord record) := by
  have hname : Fades (r.typeName record.name) (r.typeName record.name) :=
    .of_colorless (colorless_typeName hfree hrecord.name)
  have hpub : Fades ((ofEnabled true).paintKeyword "pub") ((ofEnabled false).paintKeyword "pub") :=
    (Fades.of_colorless (by decide)).paintKeyword
  have hfields : List.Forall₂ Fades
      ((r.typedFields record).map fun f =>
        "    " ++ (ofEnabled true).paintKeyword "pub" ++ " " ++ f.1 ++ ": " ++ f.2 ++ ",\n")
      ((r.typedFields record).map fun f =>
        "    " ++ (ofEnabled false).paintKeyword "pub" ++ " " ++ f.1 ++ ": " ++ f.2 ++ ",\n") := by
    rw [List.forall₂_map_left_iff, List.forall₂_map_right_iff, List.forall₂_same]
    intro f hf
    obtain ⟨hfield, htype⟩ := colorless_typedFields hfree hrecord f hf
    have hhead := ((Fades.of_colorless (s := "    ") (by decide)).append hpub).append_text
      (x := " ") (by decide)
    exact (((hhead.append_text hfield).append_text (by decide)).append_text htype).append_text
      (by decide)
  unfold structRecord
  rw [typedFields_colored, typedFields_colored]
  have hkeyword := (fades_deriveLine hderives).append
    (Fades.of_colorless (s := "pub struct") (by decide)).paintKeyword
  have hopened := ((hkeyword.append_text (x := " ") (by decide)).append
    hname.paintName).append_text (x := " \x7b\n") (by decide)
  exact (hopened.append (.join hfields)).append_text (by decide)

theorem fades_record :
    Fades ((r.colored true).record record) ((r.colored false).record record) := by
  have hsame : ∀ enabled, (r.colored enabled).dialect = r.dialect := fun _ => rfl
  rw [Renderer.record, Renderer.record, hsame, hsame]
  cases r.dialect with
  | generic => exact fades_inlineRecord hfree hrecord (by decide) (by decide)
  | scala => exact fades_inlineRecord hfree hrecord (by decide) (by decide)
  | rust => exact fades_structRecord hfree hrecord hderives

end

end

end Renderer

/-! ## Models -/

namespace Model

open Renderer

/-- No rule that is declared or referred to has an escape character in its name. -/
structure Colorless (m : Model) : Prop where
  declared : ∀ rule ∈ m.rules, Palette.Colorless rule
  referenced : ∀ rule ∈ m.allReferences, Palette.Colorless rule

variable {m : Model} {config : RenderConfig}

theorem Colorless.record (h : m.Colorless) : ∀ record ∈ m.records, record.Colorless := by
  intro record hrecord
  obtain ⟨p, hp, rfl⟩ := List.mem_map.mp hrecord
  have hreferences : ∀ rule ∈ p.2.references, Palette.Colorless rule := fun rule hrule =>
    h.referenced rule (List.mem_flatMap.mpr ⟨p.2, List.mem_map_of_mem hp, hrule⟩)
  refine ⟨h.declared p.1 (List.mem_map_of_mem hp), fun field hfield => ?_,
    fun shape hshape rule hrule => hreferences rule (Shape.references_of_mem_fields hshape hrule)⟩
  obtain ⟨member, hmember, n, rfl⟩ := Shape.exists_numbered_of_mem_fieldNames hfield
  refine colorless_numbered ?_ n
  rcases member.fieldName_cases with hrule | hvalue | hast
  · exact hreferences _ (Shape.references_of_mem_members hmember hrule)
  · rw [hvalue]; decide
  · rw [hast]; decide

/-- How the renderer of the declarations is prepared. -/
def preparation (m : Model) (config : RenderConfig) : List Preparation :=
  if config.dialect = .rust then [.cyclic m.cyclicRules, .rules m.rules] else [.rules m.rules]

theorem renderer_eq_prepared (m : Model) (config : RenderConfig) :
    m.renderer config = prepared config (m.preparation config) := by
  rw [renderer_eq, unnamedRenderer, preparation]
  split <;> rfl

theorem renderer_colored (m : Model) (config : RenderConfig) (enabled : Bool) :
    m.renderer (config.colored enabled) =
      (prepared config (m.preparation config)).colored enabled := by
  rw [renderer_eq_prepared, ← prepared_colored]
  rfl

theorem colorless_headerLine {source : Option String}
    (hsource : ∀ name, source = some name → Palette.Colorless name) :
    Palette.Colorless (headerLine source) := by
  cases source with
  | none => decide
  | some name =>
      exact colorless_append.mpr ⟨colorless_append.mpr ⟨by decide, hsource name rfl⟩, by decide⟩

variable (hmodel : m.Colorless)

include hmodel

theorem fades_declarations (hderives : ∀ trait ∈ config.derives, Palette.Colorless trait)
    {source : Option String} (hsource : ∀ name, source = some name → Palette.Colorless name) :
    Fades (m.declarations (config.colored true) source)
      (m.declarations (config.colored false) source) := by
  have hblocks : List.Forall₂ Fades
      (m.records.map fun record => (m.renderer (config.colored true)).record record ++ "\n")
      (m.records.map fun record => (m.renderer (config.colored false)).record record ++ "\n") := by
    rw [List.forall₂_map_left_iff, List.forall₂_map_right_iff, List.forall₂_same]
    intro record hrecord
    rw [renderer_colored, renderer_colored]
    have hderives' : ∀ trait ∈ (prepared config (m.preparation config)).config.derives,
        Palette.Colorless trait := by
      rwa [config_prepared]
    exact (fades_record (firstFree_prepared config _) (hmodel.record record hrecord)
      hderives').append_text (by decide)
  have hheader : List.Forall₂ Fades
      (if config.header then [(ofEnabled true).paintDim (headerLine source) ++ "\n"] else [])
      (if config.header then [(ofEnabled false).paintDim (headerLine source) ++ "\n"] else []) := by
    split
    · exact .cons ((Fades.of_colorless (colorless_headerLine hsource)).paintDim.append_text
        (by decide)) .nil
    · exact .nil
  exact .intercalate (by decide) (List.rel_append hheader hblocks)

theorem fades_listing :
    Fades (m.listing (config.colored true)) (m.listing (config.colored false)) := by
  have hrenderer : ∀ enabled, (Renderer.ofConfig (config.colored enabled)).withRules m.rules =
      (prepared config [.rules m.rules]).colored enabled := fun enabled => by
    rw [← prepared_colored]
    rfl
  unfold listing
  rw [hrenderer, hrenderer]
  refine .join ?_
  rw [List.forall₂_map_left_iff, List.forall₂_map_right_iff, List.forall₂_same]
  intro p hp
  have hname : Fades p.1 p.1 := .of_colorless (hmodel.declared p.1 (List.mem_map_of_mem hp))
  have hshape : Palette.Colorless ((prepared config [.rules m.rules]).shape p.2) := by
    refine colorless_shape _ fun rule hrule => colorless_reference ?_
    refine colorless_typeName (firstFree_prepared config _) (hmodel.referenced rule ?_)
    exact List.mem_flatMap.mpr ⟨p.2, List.mem_map_of_mem hp, hrule⟩
  rw [shape_colored, shape_colored]
  exact ((hname.paintName.append_text (by decide)).append_text hshape).append_text (by decide)

omit hmodel

/--
Deleting the escape sequences of the palette from a colored text gives the
colorless text: for the declarations and the listing of a model and for a record
that is rendered by itself, unless an escape character is in some name, in the
traits to derive or in the name of the source.
-/
theorem colors_deleted {m : Model} {config : RenderConfig} {source : Option String}
    (hmodel : m.Colorless) (hderives : ∀ trait ∈ config.derives, Palette.Colorless trait)
    (hsource : ∀ name, source = some name → Palette.Colorless name) :
    Palette.on.delete (m.declarations (config.colored true) source) =
      m.declarations (config.colored false) source ∧
    Palette.on.delete (m.listing (config.colored true)) = m.listing (config.colored false) ∧
    ∀ (steps : List Preparation) (record : Record), record.Colorless →
      Palette.on.delete ((prepared (config.colored true) steps).record record) =
        (prepared (config.colored false) steps).record record := by
  refine ⟨(fades_declarations hmodel hderives hsource).delete_eq, (fades_listing hmodel).delete_eq,
    fun steps record hrecord => ?_⟩
  rw [prepared_colored, prepared_colored]
  refine (fades_record (firstFree_prepared config steps) hrecord ?_).delete_eq
  rw [config_prepared]
  exact hderives

/-- A struct that holds itself, beside a rule whose name looks like the end of a color. -/
def coloredStruct : Model :=
  ofList [("node", .sequence [.rule "node", .rule "[0m"]), ("[0m", .empty)]

theorem colors_deleted_coloredStruct :
    coloredStruct.Colorless ∧ (Shape.empty.record "[0m").Colorless ∧
      coloredStruct.declarations ((RenderConfig.default.withDialect .rust).colored true)
          (some "g") ≠
        coloredStruct.declarations ((RenderConfig.default.withDialect .rust).colored false)
          (some "g") ∧
      Palette.on.delete (coloredStruct.declarations
          ((RenderConfig.default.withDialect .rust).colored true) (some "g")) =
        coloredStruct.declarations ((RenderConfig.default.withDialect .rust).colored false)
          (some "g") ∧
      Palette.on.delete ((prepared (RenderConfig.default.colored true) [.rules ["[0m"]]).record
          (Shape.empty.record "[0m")) =
        (prepared (RenderConfig.default.colored false) [.rules ["[0m"]]).record
          (Shape.empty.record "[0m") := by
  have hmodel : coloredStruct.Colorless := ⟨by decide, by decide⟩
  have hrecord : (Shape.empty.record "[0m").Colorless := ⟨by decide, by decide, by decide⟩
  have hderives : ∀ trait ∈ RenderConfig.default.derives, Palette.Colorless trait := by decide
  have hsource : ∀ name, some "g" = some name → Palette.Colorless name := by
    rintro name ⟨⟩
    decide
  exact ⟨hmodel, hrecord, by decide +kernel,
    (@colors_deleted _ (RenderConfig.default.withDialect .rust) _ hmodel hderives hsource).1,
    (colors_deleted hmodel hderives hsource).2.2 _ _ hrecord⟩

end Model
end GrammarRecords
