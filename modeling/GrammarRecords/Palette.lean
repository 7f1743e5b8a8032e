/-
Terminal colors of declarations.  A palette is four strings, so a colorless
palette is the one with four empty strings and needs no case of its own.
-/

namespace GrammarRecords

/-- The escape sequences that open each role, and the one that closes them all. -/
structure Palette where
  keyword : String
  name : String
  dim : String
  reset : String
deriving DecidableEq, Repr

namespace Palette

def on : Palette :=
  ⟨"\x1b[35m", "\x1b[34m", "\x1b[2m", "\x1b[0m"⟩

def off : Palette :=
  ⟨"", "", "", ""⟩

instance : Inhabited Palette := ⟨off⟩

def ofEnabled (enabled : Bool) : Palette :=
  if enabled then on else off

def isEnabled (p : Palette) : Bool :=
  p.reset != ""

def paintKeyword (p : Palette) (text : String) : String :=
  p.keyword ++ text ++ p.reset

def paintName (p : Palette) (text : String) : String :=
  p.name ++ text ++ p.reset

def paintDim (p : Palette) (text : String) : String :=
  p.dim ++ text ++ p.reset

end Palette
end GrammarRecords
