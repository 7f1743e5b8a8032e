/-
The renderer that writes the declarations of a model.

It has the configuration it is given, it has named exactly the rules of the
model, and in the Rust dialect it writes references to the cyclic ones as
pointers.
-/
import GrammarRecords.Declarations
import GrammarRecords.Proofs.Render.Candidates

namespace GrammarRecords
namespace Model

/-- The renderer before the rules are named. -/
def unnamedRenderer (m : Model) (config : RenderConfig) : Renderer :=
  if config.dialect = .rust then (Renderer.ofConfig config).withCyclic m.cyclicRules
  else Renderer.ofConfig config

theorem renderer_eq (m : Model) (config : RenderConfig) :
    m.renderer config = (m.unnamedRenderer config).withRules m.rules := rfl

theorem config_unnamedRenderer (m : Model) (config : RenderConfig) :
    (m.unnamedRenderer config).config = config := by
  unfold unnamedRenderer
  split <;> rfl

theorem typeNames_unnamedRenderer (m : Model) (config : RenderConfig) :
    (m.unnamedRenderer config).typeNames = .empty := by
  unfold unnamedRenderer
  split <;> rfl

@[simp] theorem config_renderer (m : Model) (config : RenderConfig) :
    (m.renderer config).config = config := by
  rw [renderer_eq, Renderer.config_withRules, config_unnamedRenderer]

@[simp] theorem dialect_renderer (m : Model) (config : RenderConfig) :
    (m.renderer config).dialect = config.dialect := by
  unfold Renderer.dialect
  rw [config_renderer]

theorem cyclic_renderer (m : Model) {config : RenderConfig} (h : config.dialect = .rust) :
    (m.renderer config).cyclic = m.cyclicRules := by
  rw [renderer_eq, Renderer.cyclic_withRules, unnamedRenderer, if_pos h]
  rfl

theorem named_renderer (m : Model) (config : RenderConfig) :
    (m.renderer config).Named m.rules :=
  Renderer.named_withRules (typeNames_unnamedRenderer m config) m.rules

end Model
end GrammarRecords
