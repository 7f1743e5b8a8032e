/-
Names of rules that a model refers to without declaring them.

A declared rule is named around the names that are taken; a rule that is not
declared gets its first candidate, taken or not.  Its name is that of a
declared rule exactly if naming it behind the declared rules would have given
it a suffix (`undeclared_kept_apart_iff`).  This cannot happen where converting
and escaping keep the names of the model apart, as in the generic dialect with
nothing reserved, and in Scala unless a rule has a backtick in its name.
-/
import GrammarRecords.Proofs.Declarations
import GrammarRecords.Proofs.Model.Cycles

namespace GrammarRecords

/-! ## One rule beside the named ones -/

namespace Renderer

/--
A rule that is not among the named ones has a name of its own exactly if naming
it as well would not change its name.
-/
theorem typeName_ne_iff_withRules {r : Renderer} (hempty : r.typeNames = .empty)
    {rules : List String} {rule : String} (hrule : rule ∉ rules) :
    (∀ named ∈ rules, (r.withRules rules).typeName rule ≠ (r.withRules rules).typeName named) ↔
      ((r.withRules rules).withRules [rule]).typeName rule = (r.withRules rules).typeName rule := by
  have hall := named_withRules hempty (rules ++ [rule])
  have hself : rule ∈ rules ++ [rule] := List.mem_append_right rules (List.mem_singleton_self rule)
  have hplain : (r.withRules rules).typeName rule = r.candidate rule 0 := by
    rw [(named_withRules hempty rules).plain_of_not_mem rule hrule, candidate_withRules]
  rw [← withRules_append, hplain]
  constructor
  · intro hapart
    exact typeName_last_eq_plain hempty fun other hother _ hname => hapart other hother hname.symm
  · intro hsame named hnamed hname
    rw [← hsame, ← typeName_withRules_append hnamed [rule]] at hname
    have he := hall.injective rule hself named (List.mem_append_left _ hnamed) hname
    exact hrule (he ▸ hnamed)

end Renderer

/-! ## Models -/

namespace Model

/-- A rule that a shape of the model refers to and that has no shape itself. -/
def Undeclared (m : Model) (rule : String) : Prop :=
  rule ∈ m.allReferences ∧ rule ∉ m.rules

/-- No reference to an undeclared rule is written as the name of a declared one. -/
def KeepsUndeclaredApart (m : Model) (config : RenderConfig) : Prop :=
  ∀ rule, m.Undeclared rule → ∀ declared ∈ m.rules,
    (m.renderer config).typeName rule ≠ (m.renderer config).typeName declared

/-- Where first candidates differ, undeclared rules are kept apart. -/
theorem keepsUndeclaredApart_of_distinct {m : Model} {config : RenderConfig}
    (hdistinct : ∀ a ∈ m.rules ++ m.allReferences, ∀ b ∈ m.rules ++ m.allReferences,
      (m.renderer config).candidate a 0 = (m.renderer config).candidate b 0 → a = b) :
    m.KeepsUndeclaredApart config := by
  have hcandidate : ∀ x,
      (m.renderer config).candidate x 0 = (m.unnamedRenderer config).candidate x 0 :=
    fun x => Renderer.candidate_withRules _ m.rules x 0
  intro rule hrule declared hdeclared hname
  have hnamed := Renderer.typeName_eq_plain_of_distinct (typeNames_unnamedRenderer m config)
    m.rules fun a ha b hb hab =>
      hdistinct a (List.mem_append_left _ ha) b (List.mem_append_left _ hb)
        (by rw [hcandidate, hcandidate, hab])
  rw [(named_renderer m config).plain_of_not_mem rule hrule.2, renderer_eq m config,
    hnamed declared hdeclared, ← hcandidate declared] at hname
  have he := hdistinct rule (List.mem_append_right _ hrule.1) declared
    (List.mem_append_left _ hdeclared) hname
  exact hrule.2 (he ▸ hdeclared)

/--
Undeclared rules are kept apart exactly if naming any of them behind the
declared rules would leave it its name.  In the generic dialect with nothing
reserved they always are, and in Scala unless a name has a backtick in it.
-/
theorem undeclared_kept_apart_iff (m : Model) (config : RenderConfig) :
    (m.KeepsUndeclaredApart config ↔ ∀ rule, m.Undeclared rule →
      ((m.renderer config).withRules [rule]).typeName rule = (m.renderer config).typeName rule) ∧
    (config.dialect = .generic → config.keywords = .empty → m.KeepsUndeclaredApart config) ∧
    (config.dialect = .scala → (∀ name ∈ m.rules ++ m.allReferences, '`' ∉ name.toList) →
      m.KeepsUndeclaredApart config) := by
  refine ⟨?_, ?_, ?_⟩
  · unfold KeepsUndeclaredApart
    refine forall_congr' fun rule => imp_congr_right fun hrule => ?_
    exact Renderer.typeName_ne_iff_withRules (typeNames_unnamedRenderer m config) hrule.2
  · intro hgeneric hnone
    refine keepsUndeclaredApart_of_distinct fun a _ b _ hab => ?_
    have hplain : ∀ x, (m.renderer config).candidate x 0 = x := by
      intro x
      unfold Renderer.candidate Renderer.escape Renderer.typeBase
      rw [dialect_renderer, config_renderer, hgeneric, hnone]
      exact Keywords.escape_of_not_contains rfl
    rw [hplain, hplain] at hab
    exact hab
  · intro hscala hquoteless
    refine keepsUndeclaredApart_of_distinct fun a ha b hb hab => ?_
    unfold Renderer.candidate Renderer.escape Renderer.typeBase at hab
    rw [dialect_renderer, config_renderer, hscala] at hab
    exact Keywords.escape_scala_injective (hquoteless a ha) (hquoteless b hb) hab

/-- A rule and a hidden token of the same name, as the line ends of a grammar often are. -/
def lineEnds : Model :=
  ofList [("newline", .rule "_newline")]

theorem undeclared_kept_apart_lineEnds :
    lineEnds.Undeclared "_newline" ∧
      lineEnds.KeepsUndeclaredApart (RenderConfig.default.withDialect .scala) :=
  ⟨⟨by decide +kernel, by decide +kernel⟩,
    (undeclared_kept_apart_iff lineEnds (RenderConfig.default.withDialect .scala)).2.2 rfl
      (by decide +kernel)⟩

/-- In the Rust dialect the token is written with the name of the rule that refers to it. -/
theorem not_keepsUndeclaredApart_lineEnds :
    ¬ lineEnds.KeepsUndeclaredApart (RenderConfig.default.withDialect .rust) := by
  intro h
  exact h "_newline" ⟨by decide +kernel, by decide +kernel⟩ "newline" (by decide +kernel)
    (by decide +kernel)

end Model
end GrammarRecords
