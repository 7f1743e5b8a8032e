/-
What a caller chooses about rendering.
-/
import GrammarRecords.Palette
import GrammarRecords.Render.Keywords

namespace GrammarRecords

/-- Only the Rust dialect reads `derives` and `indirection`. -/
structure RenderConfig where
  dialect : Dialect
  keywords : Keywords
  palette : Palette
  derives : List String
  indirection : Indirection
  header : Bool
deriving DecidableEq

namespace RenderConfig

def default : RenderConfig :=
  ⟨.generic, .empty, .off, ["Debug", "Clone"], .box, true⟩

instance : Inhabited RenderConfig := ⟨default⟩

/-- Changes the dialect and goes back to its own reserved words. -/
def withDialect (c : RenderConfig) (dialect : Dialect) : RenderConfig :=
  { c with dialect := dialect, keywords := .ofDialect dialect }

def reserve (c : RenderConfig) (words : List String) : RenderConfig :=
  { c with keywords := c.keywords.insertAll words }

def withKeywords (c : RenderConfig) (keywords : Keywords) : RenderConfig :=
  { c with keywords := keywords }

def colored (c : RenderConfig) (enabled : Bool) : RenderConfig :=
  { c with palette := .ofEnabled enabled }

/-- An empty list means no attribute at all. -/
def withDerives (c : RenderConfig) (derives : List String) : RenderConfig :=
  { c with derives := derives }

def withIndirection (c : RenderConfig) (indirection : Indirection) : RenderConfig :=
  { c with indirection := indirection }

def withHeader (c : RenderConfig) (header : Bool) : RenderConfig :=
  { c with header := header }

end RenderConfig
end GrammarRecords
