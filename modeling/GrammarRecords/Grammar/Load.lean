/-
The two forms in which a grammar can be loaded, and what can go wrong.
-/
import GrammarRecords.Grammar.File
import GrammarRecords.Grammar.Packed

namespace GrammarRecords
namespace Grammar

inductive LoadError where
  | file (e : FileError)
  | packed (e : UnpackError)
deriving DecidableEq, Repr

def LoadError.message : LoadError → String
  | .file e => "JSON parse error: " ++ e.message
  | .packed e => e.message

def loadFileText (text : String) : Except LoadError Grammar :=
  (ofFileText text).mapError .file

def loadPacked (bytes : Packed.Bytes) : Except LoadError Grammar :=
  (unpack bytes).mapError .packed

end Grammar
end GrammarRecords
