/-
What the commands do: load a grammar, make a product of it, put it where it
was asked for.  The product does not depend on where the grammar came from.
-/
import GrammarRecords.CommandLine.FileSystem
import GrammarRecords.CommandLine.Scan
import GrammarRecords.Declarations
import GrammarRecords.Grammar.Load
import GrammarRecords.Json.Export

namespace GrammarRecords
namespace CommandLine

inductive Source where
  | input
  | fileText (path : String)
  | packedFile (path : String)
deriving DecidableEq, Repr

def Source.ofPath (path : String) : Source :=
  if path = "-" then .input
  else if extension? path = some "bin" then .packedFile path
  else .fileText path

inductive CommandError where
  | read (path : String) (fault : FileFault)
  | input (fault : FileFault)
  | grammar (name : String) (e : Grammar.LoadError)
  | write (path : String) (fault : FileFault)
deriving DecidableEq, Repr

def CommandError.message : CommandError → String
  | .read path fault => "failed to read '" ++ path ++ "': " ++ fault.message
  | .input fault => "failed to read stdin: " ++ fault.message
  | .grammar name e => "invalid grammar '" ++ name ++ "': " ++ e.message
  | .write path fault => "failed to write '" ++ path ++ "': " ++ fault.message

def textOf (bytes : Packed.Bytes) : Except FileFault String :=
  match Packed.textOfBytes? bytes with
  | some text => .ok text
  | none => .error .notText

def Source.grammar (contents : Except FileFault Packed.Bytes) :
    Source → Except CommandError Grammar
  | .input => do
      let text ← (contents >>= textOf).mapError .input
      (Grammar.loadFileText text).mapError (.grammar "<stdin>")
  | .fileText path => do
      let text ← (contents >>= textOf).mapError (.read path)
      (Grammar.loadFileText text).mapError (.grammar path)
  | .packedFile path => do
      let bytes ← contents.mapError (.read path)
      (Grammar.loadPacked bytes).mapError (.grammar path)

inductive Product where
  | text (text : String)
  | packed (bytes : Packed.Bytes)
deriving DecidableEq, Repr

def Product.bytes : Product → Packed.Bytes
  | .text t => Packed.textBytes t
  | .packed bs => bs

def ShapesCommand.text (terminal : Bool) (c : ShapesCommand) (g : Grammar) : String :=
  match c.format with
  | .json => g.model.toJson.pretty ++ "\n"
  | .text =>
      g.model.listing ((RenderConfig.default.withDialect c.dialect).colored (c.color terminal))

def RecordsCommand.config (terminal : Bool) (c : RecordsCommand) : RenderConfig :=
  let config := ((((RenderConfig.default.withDialect c.dialect).reserve c.reserved).withIndirection
    c.indirection).withHeader c.header).colored (c.color terminal)
  match c.derives with
  | some traits => config.withDerives traits
  | none => config

def RecordsCommand.text (terminal : Bool) (c : RecordsCommand) (g : Grammar) : String :=
  match c.format with
  | .json => g.model.recordsToJson.pretty ++ "\n"
  | .text => g.model.declarations (c.config terminal) (some g.name)

namespace Command

def grammarPath : Command → String
  | shapes c => c.grammar
  | records c => c.grammar
  | pack c => c.grammar

def source (c : Command) : Source := .ofPath c.grammarPath

def output? : Command → Option String
  | shapes c => c.output
  | records c => c.output
  | pack c => some c.output

def product (terminal : Bool) (c : Command) (g : Grammar) : Product :=
  match c with
  | shapes c => .text (c.text terminal g)
  | records c => .text (c.text terminal g)
  | pack _ => .packed g.pack

/-- Gives the product and the files afterwards. -/
def run (fs : FileSystem) (terminal : Bool) (input : Packed.Bytes) (c : Command) :
    Except CommandError (Product × FileSystem) := do
  let contents := match c.source with
    | .input => .ok input
    | .fileText path => fs.read path
    | .packedFile path => fs.read path
  let product := c.product terminal (← c.source.grammar contents)
  match c.output? with
  | none => return (product, fs)
  | some path => return (product, ← (fs.write path product.bytes).mapError (.write path))

end Command
end CommandLine
end GrammarRecords
