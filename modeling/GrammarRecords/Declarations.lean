/-
The declarations of a whole model, and its listing for inspection.
-/
import GrammarRecords.Model
import GrammarRecords.Render.Renderer

namespace GrammarRecords
namespace Model

/-- Knows every rule of the model, and in the Rust dialect the cyclic ones. -/
def renderer (m : Model) (config : RenderConfig) : Renderer :=
  let plain := Renderer.ofConfig config
  let marked := if config.dialect = .rust then plain.withCyclic m.cyclicRules else plain
  marked.withRules m.rules

def headerLine : Option String → String
  | some source => "// Generated by shapegen from grammar `" ++ source ++ "`."
  | none => "// Generated by shapegen."

/-- One declaration for each rule, with blank lines between and after the header. -/
def declarations (m : Model) (config : RenderConfig) (source : Option String) : String :=
  let renderer := m.renderer config
  let blocks := m.records.map fun record => renderer.record record ++ "\n"
  let header :=
    if config.header then [config.palette.paintDim (headerLine source) ++ "\n"] else []
  "\n".intercalate (header ++ blocks)

/-- One line for each rule; no reference is indirect here. -/
def listing (m : Model) (config : RenderConfig) : String :=
  let renderer := (Renderer.ofConfig config).withRules m.rules
  String.join <| m.shapes.entries.map fun p =>
    config.palette.paintName p.1 ++ " = " ++ renderer.shape p.2 ++ "\n"

end Model
end GrammarRecords
