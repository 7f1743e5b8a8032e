/-
Rules that are written like a type of the dialect.

The words that a renderer writes for scalars, sums, containers and pointers
consist of letters.  A suffix adds digits and an escape adds a quote, a hash or
an underscore, so a rule gets such a word for its name only if its converted
name is that word.  The words are not reserved in any dialect.  Hence the first
rule whose converted name is the word is written with it, and no other rule:
`declared_name_in_vocabulary_iff`.
-/
import GrammarRecords.Proofs.Declarations
import GrammarRecords.Proofs.Render.TypeText
import GrammarRecords.Proofs.Text.Case

namespace GrammarRecords

/-! ## The words of a dialect -/

namespace Dialect

/-- The words for types that are not rules. -/
def typeWords (d : Dialect) : List String :=
  [d.scalar, d.sumName, d.containerName .list, d.containerName .nonEmptyList,
    d.containerName .optional]

theorem scalar_mem_typeWords (d : Dialect) : d.scalar ∈ d.typeWords :=
  List.mem_cons_self

theorem sumName_mem_typeWords (d : Dialect) : d.sumName ∈ d.typeWords :=
  List.mem_cons_of_mem _ List.mem_cons_self

theorem containerName_mem_typeWords (d : Dialect) (kind : ContainerKind) :
    d.containerName kind ∈ d.typeWords := by
  cases kind <;> simp [typeWords]

theorem isAlpha_of_mem_typeWords {d : Dialect} {word : String} (h : word ∈ d.typeWords) :
    ∀ c ∈ word.toList, c.isAlpha = true := by
  have hall : ∀ word ∈ d.typeWords, word.toList.all Char.isAlpha = true := by
    cases d <;> decide
  exact List.all_eq_true.mp (hall word h)

/-- The same with the pointer, where there is one. -/
def vocabulary (d : Dialect) (i : Indirection) : List String :=
  if d = .rust then i.typeName :: d.typeWords else d.typeWords

theorem isAlpha_of_mem_vocabulary {d : Dialect} {i : Indirection} {word : String}
    (h : word ∈ d.vocabulary i) : ∀ c ∈ word.toList, c.isAlpha = true := by
  have hpointer : i.typeName.toList.all Char.isAlpha = true := by
    cases i <;> decide
  unfold vocabulary at h
  split at h
  · rcases List.mem_cons.mp h with rfl | hword
    · exact List.all_eq_true.mp hpointer
    · exact isAlpha_of_mem_typeWords hword
  · exact isAlpha_of_mem_typeWords h

theorem not_reserved_of_mem_vocabulary {d : Dialect} {i : Indirection} {word : String}
    (h : word ∈ d.vocabulary i) : (Keywords.ofDialect d).contains word = false := by
  cases d with
  | generic => rfl
  | scala =>
      have hall : ∀ word ∈ scala.vocabulary i,
          word ∉ Keywords.javaWords ++ Keywords.scalaWords ++ Keywords.scalaParserNames := by
        cases i <;> decide
      exact (Keywords.contains_ofList _ word).trans (decide_eq_false (hall word h))
  | rust =>
      have hall : ∀ word ∈ rust.vocabulary i, word ∉ Keywords.rustWords := by
        cases i <;> decide
      exact (Keywords.contains_ofList _ word).trans (decide_eq_false (hall word h))

end Dialect

namespace BinaryShape

mutual

/-- A type is written with no other words. -/
theorem mem_typeWords_of_mem_pieces (d : Dialect) (text : String) : ∀ b : BinaryShape,
    .word text ∈ b.pieces d → text ∈ d.typeWords
  | .empty => by
      intro h
      simp only [pieces, List.mem_singleton, Piece.word.injEq] at h
      rw [h]
      exact d.scalar_mem_typeWords
  | .rule name => by simp [pieces]
  | .sequence parts => by
      intro h
      simp only [pieces, List.mem_cons, List.mem_append, reduceCtorEq, List.not_mem_nil,
        or_false, false_or] at h
      exact mem_typeWords_of_mem_partPieces d text parts h
  | .sum left right => by
      intro h
      simp only [pieces, List.mem_cons, List.mem_append, reduceCtorEq, List.not_mem_nil,
        or_false, false_or, Piece.word.injEq] at h
      rcases h with rfl | hleft | hright
      · exact d.sumName_mem_typeWords
      · exact mem_typeWords_of_mem_pieces d text left hleft
      · exact mem_typeWords_of_mem_pieces d text right hright
  | .container kind inner => by
      intro h
      simp only [pieces, List.mem_cons, List.mem_append, reduceCtorEq, List.not_mem_nil,
        or_false, false_or, Piece.word.injEq] at h
      rcases h with rfl | hinner
      · exact d.containerName_mem_typeWords kind
      · exact mem_typeWords_of_mem_pieces d text inner hinner

theorem mem_typeWords_of_mem_partPieces (d : Dialect) (text : String) :
    ∀ parts : List BinaryShape, .word text ∈ partPieces d parts → text ∈ d.typeWords
  | [] => by simp [partPieces]
  | [part] => mem_typeWords_of_mem_pieces d text part
  | part :: next :: rest => by
      intro h
      rw [partPieces_cons, List.mem_append, List.mem_cons] at h
      rcases h with hpart | hmark | hrest
      · exact mem_typeWords_of_mem_pieces d text part hpart
      · exact Piece.noConfusion hmark
      · exact mem_typeWords_of_mem_partPieces d text (next :: rest) hrest

end

end BinaryShape

/-! ## Candidates that consist of letters -/

namespace Keywords

/-- An escape adds a character that is no letter. -/
theorem eq_of_escape_eq_letters {dialect : Dialect} {ks : Keywords} {word text : String}
    (htext : ∀ c ∈ text.toList, c.isAlpha = true) (h : escape dialect ks word = text) :
    word = text := by
  have hno : ∀ c : Char, c.isAlpha = false → c ∉ text.toList := by
    intro c hc hmem
    rw [htext c hmem] at hc
    exact Bool.noConfusion hc
  rcases escape_cases dialect ks word with he | ⟨-, he⟩ | ⟨-, he, -⟩ | ⟨-, he⟩
  · exact he.symm.trans h
  · refine absurd ?_ (hno '`' (by decide))
    rw [← h, he, String.toList_append]
    exact List.mem_append_right _ (by decide)
  · refine absurd ?_ (hno '#' (by decide))
    rw [← h, he]
    exact Names.hash_mem_raw word
  · refine absurd ?_ (hno '_' (by decide))
    rw [← h, he, String.toList_append]
    exact List.mem_append_right _ (by decide)

end Keywords

namespace Names

/-- A suffix adds a digit, which is no letter. -/
theorem eq_of_numbered_eq_letters {base text : String} {n : Nat}
    (htext : ∀ c ∈ text.toList, c.isAlpha = true) (h : numbered base n = text) : base = text := by
  refine ((numbered_eq_iff_of_no_digit fun c hc => ?_).mp h).1
  by_contra hdigit
  have hletter := htext c hc
  rw [Text.isAlpha_of_isDigit (Bool.not_eq_false _ ▸ hdigit)] at hletter
  exact Bool.noConfusion hletter

end Names

namespace Renderer

theorem typeBase_of_candidate_eq_letters {r : Renderer} {rule text : String} {n : Nat}
    (htext : ∀ c ∈ text.toList, c.isAlpha = true) (h : r.candidate rule n = text) :
    r.typeBase rule = text :=
  Names.eq_of_numbered_eq_letters htext (Keywords.eq_of_escape_eq_letters htext h)

theorem candidate_zero_of_typeBase {r : Renderer} {rule text : String}
    (hfree : r.config.keywords.contains text = false) (h : r.typeBase rule = text) :
    r.candidate rule 0 = text := by
  unfold candidate
  rw [h]
  exact Keywords.escape_of_not_contains hfree

/-! ## The rule that is written with a word -/

section Word

variable {r : Renderer} (hempty : r.typeNames = .empty) {word : String}
  (hletters : ∀ c ∈ word.toList, c.isAlpha = true)

include hempty hletters

theorem typeBase_of_typeName_eq_word {rules : List String} {rule : String} (hrule : rule ∈ rules)
    (h : (r.withRules rules).typeName rule = word) : r.typeBase rule = word := by
  obtain ⟨n, hn, -⟩ := (named_withRules hempty rules).first_free rule hrule
  rw [candidate_withRules] at hn
  exact typeBase_of_candidate_eq_letters hletters (hn.symm.trans h)

variable (hfree : r.config.keywords.contains word = false)

include hfree

/-- No rule before it has the word, so the first rule that converts to it gets it. -/
theorem typeName_eq_word_of_find? {rules : List String} {rule : String}
    (h : rules.find? (fun other => r.typeBase other = word) = some rule) :
    (r.withRules rules).typeName rule = word := by
  obtain ⟨hbase, front, back, rfl, hfront⟩ := List.find?_eq_some_iff_append.mp h
  have hself : rule ∈ front ++ [rule] := List.mem_append_right front (List.mem_singleton_self rule)
  have hplain : r.candidate rule 0 = word :=
    candidate_zero_of_typeBase hfree (of_decide_eq_true hbase)
  rw [List.append_cons, typeName_withRules_append hself, ← hplain]
  refine typeName_last_eq_plain hempty fun other hother _ hname => ?_
  have hmiss := hfront other hother
  simp [typeBase_of_typeName_eq_word hempty hletters hother (hname.trans hplain)] at hmiss

theorem typeName_eq_word_iff {rules : List String} {rule : String} (hrule : rule ∈ rules) :
    (r.withRules rules).typeName rule = word ↔
      rules.find? (fun other => r.typeBase other = word) = some rule := by
  constructor
  · intro hname
    have hbase := typeBase_of_typeName_eq_word hempty hletters hrule hname
    obtain ⟨first, hfirst⟩ : ∃ first,
        rules.find? (fun other => r.typeBase other = word) = some first :=
      Option.isSome_iff_exists.mp
        (List.find?_isSome.mpr ⟨rule, hrule, decide_eq_true hbase⟩)
    have hsame : (r.withRules rules).typeName rule = (r.withRules rules).typeName first :=
      hname.trans (typeName_eq_word_of_find? hempty hletters hfree hfirst).symm
    have he : rule = first := (named_withRules hempty rules).injective rule hrule first
      (List.mem_of_find?_eq_some hfirst) hsame
    rw [he]
    exact hfirst
  · exact typeName_eq_word_of_find? hempty hletters hfree

end Word

end Renderer

/-! ## Models -/

namespace Model

/-- No declared rule is written like a type of the dialect. -/
def AvoidsVocabulary (m : Model) (config : RenderConfig) : Prop :=
  ∀ rule ∈ m.rules,
    (m.renderer config).typeName rule ∉ config.dialect.vocabulary config.indirection

/--
With the reserved words of the dialect, a declared rule is written with a word
of the dialect's types exactly if it is the first one whose converted name is
that word.  So the words are avoided exactly if no converted name is one.
-/
theorem declared_name_in_vocabulary_iff (m : Model) {config : RenderConfig}
    (hkeywords : config.keywords = .ofDialect config.dialect) :
    (∀ word ∈ config.dialect.vocabulary config.indirection, ∀ rule ∈ m.rules,
      ((m.renderer config).typeName rule = word ↔
        m.rules.find? (fun other => (m.renderer config).typeBase other = word) = some rule)) ∧
    (m.AvoidsVocabulary config ↔ ∀ rule ∈ m.rules,
      (m.renderer config).typeBase rule ∉ config.dialect.vocabulary config.indirection) := by
  have hbase : ∀ rule, (m.renderer config).typeBase rule =
      (m.unnamedRenderer config).typeBase rule := by
    intro rule
    unfold Renderer.typeBase Renderer.dialect
    rw [config_renderer, config_unnamedRenderer]
  have hfree : ∀ word ∈ config.dialect.vocabulary config.indirection,
      (m.unnamedRenderer config).config.keywords.contains word = false := by
    intro word hword
    rw [config_unnamedRenderer, hkeywords]
    exact Dialect.not_reserved_of_mem_vocabulary hword
  have hempty := typeNames_unnamedRenderer m config
  simp only [hbase]
  refine ⟨?_, ?_, ?_⟩
  · intro word hword rule hrule
    exact Renderer.typeName_eq_word_iff hempty (Dialect.isAlpha_of_mem_vocabulary hword)
      (hfree word hword) hrule
  · intro havoids rule hrule hword
    obtain ⟨first, hfirst⟩ : ∃ first, m.rules.find? (fun other =>
        (m.unnamedRenderer config).typeBase other = (m.unnamedRenderer config).typeBase rule) =
          some first :=
      Option.isSome_iff_exists.mp (List.find?_isSome.mpr ⟨rule, hrule, decide_eq_true rfl⟩)
    have hname := Renderer.typeName_eq_word_of_find? hempty
      (Dialect.isAlpha_of_mem_vocabulary hword) (hfree _ hword) hfirst
    exact havoids first (List.mem_of_find?_eq_some hfirst) (hname ▸ hword)
  · intro hconverted rule hrule hword
    have hrulebase := Renderer.typeBase_of_typeName_eq_word hempty
      (Dialect.isAlpha_of_mem_vocabulary hword) hrule rfl
    exact hconverted rule hrule (hrulebase ▸ hword)

/-- Three rules that convert to the word for scalars in the Rust dialect. -/
def strings : Model :=
  ofList [("_string", .rule "string"), ("string", .empty), ("String", .empty)]

theorem declared_name_in_vocabulary_strings :
    (RenderConfig.default.withDialect .rust).keywords =
        .ofDialect (RenderConfig.default.withDialect .rust).dialect ∧
      (strings.renderer (RenderConfig.default.withDialect .rust)).typeName "_string" = "String" ∧
      (strings.renderer (RenderConfig.default.withDialect .rust)).typeName "string" ≠ "String" := by
  have hwords := (@declared_name_in_vocabulary_iff strings
    (RenderConfig.default.withDialect .rust) rfl).1 "String" (by decide)
  refine ⟨rfl, (hwords "_string" (by decide +kernel)).mpr (by decide +kernel), ?_⟩
  rw [ne_eq, hwords "string" (by decide +kernel)]
  decide +kernel

/-- A rule that the dialect would write like its scalar. -/
def lowercaseString : Model :=
  ofList [("string", .empty)]

theorem not_avoidsVocabulary_lowercaseString :
    (∀ rule ∈ lowercaseString.rules, Keywords.isPlainWord rule = true) ∧
      ¬ lowercaseString.AvoidsVocabulary (RenderConfig.default.withDialect .rust) := by
  refine ⟨by decide +kernel, fun havoids => ?_⟩
  exact havoids "string" (by decide +kernel) (by decide +kernel)

end Model
end GrammarRecords
