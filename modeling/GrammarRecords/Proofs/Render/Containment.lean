/-
No record contains itself in the Rust dialect.

A field may have a record as its type, a list of it or a tuple with it in it,
and all of these are built in: only a pointer ends the containment.  A record
that holds another one without a pointer refers to its rule, and that rule is not
cyclic, for else the reference were written as a pointer.  A cycle of such
records is a cycle of references, so every rule on it would be cyclic.
-/
import GrammarRecords.Proofs.Declarations
import GrammarRecords.Proofs.Model.Cycles
import GrammarRecords.Proofs.Record
import GrammarRecords.Proofs.Render.TypeText
import Mathlib.Data.Fintype.Card
import Mathlib.Data.Set.Finite.Basic

namespace GrammarRecords

open Relation

/-! ## References in a record -/

/-- A record has no references but those of the shape it is made from. -/
theorem Shape.references_of_mem_fields {name : String} {shape field : Shape}
    (h : field ∈ (shape.record name).fields.values) : field.references ⊆ shape.references := by
  obtain ⟨p, hp, rfl⟩ := List.mem_map.mp h
  have hmember : p.2 ∈ shape.members := by
    rw [← FieldNamer.map_snd_assignAll .start shape.members]
    exact List.mem_map_of_mem (Table.mem_of_mem_entries_ofList hp)
  exact references_of_mem_members hmember

/-! ## References without a pointer -/

theorem Indirection.wrap_ne (i : Indirection) (type : String) : i.wrap type ≠ type := by
  intro h
  have hlength := congrArg String.length h
  simp only [wrap, String.length_append] at hlength
  have hclose : (">" : String).length = 1 := rfl
  omega

namespace Renderer

/-- The type of `shape` has the plain type name of `rule` where it refers to that rule. -/
def WritesBare (r : Renderer) (shape : Shape) (rule : String) : Prop :=
  ∃ before after, shape.binary.pieces r.dialect = before ++ .reference rule :: after ∧
    r.shape shape = r.write before ++ r.typeName rule ++ r.write after

theorem writesBare_iff {r : Renderer} {shape : Shape} {rule : String} :
    r.WritesBare shape rule ↔
      rule ∈ shape.references ∧ r.reference rule = r.typeName rule := by
  rw [← Shape.references_binary, ← BinaryShape.reference_mem_pieces r.dialect]
  constructor
  · rintro ⟨before, after, hpieces, htext⟩
    refine ⟨hpieces ▸ List.mem_append_right before List.mem_cons_self, ?_⟩
    rw [shape_eq_write, hpieces, write_append, write_reference, ← String.append_assoc] at htext
    exact (String.append_right_inj _).mp ((String.append_left_inj _).mp htext)
  · rintro ⟨hmem, hbare⟩
    obtain ⟨before, after, hpieces⟩ := List.append_of_mem hmem
    refine ⟨before, after, hpieces, ?_⟩
    rw [shape_eq_write, hpieces, write_append, write_reference, hbare, String.append_assoc]

theorem reference_eq_typeName_iff {r : Renderer} (h : r.dialect = .rust) {rule : String} :
    r.reference rule = r.typeName rule ↔ rule ∉ r.cyclic := by
  unfold reference
  by_cases hcyclic : rule ∈ r.cyclic
  · rw [if_pos ⟨h, hcyclic⟩]
    exact iff_of_false (Indirection.wrap_ne _ _) (fun hout => hout hcyclic)
  · rw [if_neg (fun hboth => hcyclic hboth.2)]
    exact iff_of_true rfl hcyclic

end Renderer

/-! ## Containment -/

namespace Model

/--
The record written for `holder` has a field with the record of `held` in it,
and not behind a pointer.
-/
def HoldsBare (m : Model) (config : RenderConfig) (holder held : String) : Prop :=
  held ∈ m.rules ∧ ∃ record ∈ m.records, record.name = holder ∧
    ∃ field ∈ record.fields.values, (m.renderer config).WritesBare field held

theorem HoldsBare.refers {m : Model} {config : RenderConfig} {holder held : String}
    (h : m.HoldsBare config holder held) : m.Refers holder held := by
  obtain ⟨-, record, hrecord, rfl, field, hfield, hbare⟩ := h
  obtain ⟨p, hp, rfl⟩ := List.mem_map.mp hrecord
  exact refers_iff.mpr ⟨p.2, hp,
    Shape.references_of_mem_fields hfield (Renderer.writesBare_iff.mp hbare).1⟩

theorem HoldsBare.not_cyclic {m : Model} {config : RenderConfig} (hdialect : config.dialect = .rust)
    {holder held : String} (h : m.HoldsBare config holder held) : held ∉ m.cyclicRules := by
  obtain ⟨-, record, -, -, field, -, hbare⟩ := h
  have hplain := (Renderer.writesBare_iff.mp hbare).2
  have hrust : (m.renderer config).dialect = .rust := by
    rw [dialect_renderer, hdialect]
  rw [Renderer.reference_eq_typeName_iff hrust, cyclic_renderer m hdialect] at hplain
  exact hplain

/-- A relation that is acyclic and holds of finitely many things on its left is well-founded. -/
theorem wellFounded_of_acyclic {α : Type} {R : α → α → Prop} (s : List α)
    (hmem : ∀ a b, R a b → a ∈ s) (hacyclic : ∀ a, ¬ TransGen R a a) : WellFounded R := by
  have hfinite : WellFounded fun a b : {x // x ∈ s} => TransGen R a.1 b.1 := by
    have : IsTrans {x // x ∈ s} fun a b => TransGen R a.1 b.1 :=
      ⟨fun _ _ _ hab hbc => hab.trans hbc⟩
    have : Std.Irrefl fun a b : {x // x ∈ s} => TransGen R a.1 b.1 :=
      ⟨fun a ha => hacyclic a.1 ha⟩
    have : Finite {x // x ∈ s} := s.finite_toSet.to_subtype
    exact Finite.wellFounded_of_trans_of_irrefl _
  have hacc : ∀ a : {x // x ∈ s}, Acc R a.1 := by
    intro a
    induction a using hfinite.induction with
    | _ a ih => exact ⟨_, fun b hb => ih ⟨b, hmem b a.1 hb⟩ (TransGen.single hb)⟩
  exact ⟨fun a => ⟨a, fun b hb => hacc ⟨b, hmem b a hb⟩⟩⟩

/--
In the Rust dialect no record contains itself through other records, however
many, so containment without pointers is well-founded.
-/
theorem bare_containment_acyclic (m : Model) {config : RenderConfig}
    (hdialect : config.dialect = .rust) :
    (∀ rule, ¬ TransGen (m.HoldsBare config) rule rule) ∧
      WellFounded fun held holder => m.HoldsBare config holder held := by
  have hacyclic : ∀ rule, ¬ TransGen (m.HoldsBare config) rule rule := by
    intro rule hcycle
    obtain ⟨last, -, hlast⟩ := TransGen.tail'_iff.mp hcycle
    refine hlast.not_cyclic hdialect (mem_cyclicRules.mpr ⟨hlast.1, ?_⟩)
    exact TransGen.mono (fun _ _ hstep => hstep.refers) rule rule hcycle
  refine ⟨hacyclic, wellFounded_of_acyclic m.rules (fun held holder h => h.1) ?_⟩
  intro rule hcycle
  exact hacyclic rule (transGen_swap.mp hcycle)

/-- Expressions contain each other in two overlapping cycles; a number contains nothing. -/
def calculator : Model :=
  ofList [
    ("expression", .choice [.rule "number", .rule "call", .rule "binary"]),
    ("binary", .sequence [.rule "expression", .rule "expression"]),
    ("call", .sequence [.rule "number", .container .optional (.rule "expression")]),
    ("number", .empty)]

theorem bare_containment_calculator :
    (RenderConfig.default.withDialect .rust).dialect = .rust ∧
      calculator.cyclicRules = ["expression", "binary", "call"] ∧
      calculator.HoldsBare (RenderConfig.default.withDialect .rust) "call" "number" ∧
      ¬ TransGen (calculator.HoldsBare (RenderConfig.default.withDialect .rust))
        "expression" "expression" := by
  have hcall : calculator.HoldsBare (RenderConfig.default.withDialect .rust) "call" "number" := by
    refine ⟨by decide +kernel, Shape.record "call"
      (.sequence [.rule "number", .container .optional (.rule "expression")]),
      by decide +kernel, rfl, .rule "number", by decide +kernel, ?_⟩
    exact Renderer.writesBare_iff.mpr ⟨by decide +kernel, by decide +kernel⟩
  exact ⟨rfl, by decide +kernel, hcall,
    (bare_containment_acyclic calculator rfl).1 "expression"⟩

end Model
end GrammarRecords
