/-
Rendering of shapes and records as declarations of the target dialect.

A sum is binary in every dialect: more than two options nest to the right.
The options are written from left to right, each but the last behind an opened
sum, and the closing brackets follow together.
-/
import GrammarRecords.Record
import GrammarRecords.Render.Config
import GrammarRecords.Text.Case

namespace GrammarRecords

/-- A configuration with the rules that need indirection and the names given to rules. -/
structure Renderer where
  config : RenderConfig
  cyclic : List String
  typeNames : Table String String
deriving DecidableEq

namespace Renderer

def ofConfig (config : RenderConfig) : Renderer := ⟨config, [], .empty⟩

def dialect (r : Renderer) : Dialect := r.config.dialect

def escape (r : Renderer) (word : String) : String :=
  r.config.keywords.escape r.dialect word

def typeBase (r : Renderer) (rule : String) : String :=
  match r.dialect with
  | .rust => Text.pascalCase rule
  | .generic | .scala => rule

def fieldBase (r : Renderer) (field : String) : String :=
  match r.dialect with
  | .rust => Text.snakeCase field
  | .generic | .scala => field

/--
Gives rules type names that are not in use; a rule keeps the name it has.
`used` holds the names in use, and every new name is added to it; while there
are fewer than `2 ^ 31 - 1`, a counter of 32 bits is enough for the suffixes.
-/
def registerAll (r : Renderer) (used : List String) : List String → Renderer
  | [] => r
  | rule :: rest =>
      if r.typeNames.contains rule then registerAll r used rest
      else
        let (name, used) := Names.claim used r.escape (r.typeBase rule)
        registerAll { r with typeNames := r.typeNames.insert rule name } used rest

/-- Registers a batch of rules.  The names in use are collected once for each batch. -/
def withRules (r : Renderer) (rules : List String) : Renderer :=
  r.registerAll r.typeNames.values rules

/-- Marks rules whose references are indirect in the Rust dialect. -/
def withCyclic (r : Renderer) (rules : List String) : Renderer :=
  { r with cyclic := r.cyclic ++ rules }

def typeName (r : Renderer) (rule : String) : String :=
  match r.typeNames.get? rule with
  | some name => name
  | none => r.escape (r.typeBase rule)

def reference (r : Renderer) (rule : String) : String :=
  if r.dialect = .rust ∧ rule ∈ r.cyclic then
    r.config.indirection.wrap (r.typeName rule)
  else r.typeName rule

def openSum (r : Renderer) : String :=
  r.dialect.sumName ++ r.dialect.openArguments

/-- Closes as many sums as the list has members after the first. -/
def closeSums (r : Renderer) : List Shape → String
  | [] => ""
  | [_] => ""
  | _ :: rest => closeSums r rest ++ r.dialect.closeArguments

mutual

def shape (r : Renderer) : Shape → String
  | .empty => r.dialect.scalar
  | .rule name => r.reference name
  | .sequence parts => r.dialect.openTuple ++ tuple r parts ++ r.dialect.closeTuple
  | .choice [] => r.dialect.scalar
  | .choice (option :: rest) =>
      alternatives r (option :: rest) ++ r.closeSums (option :: rest)
  | .container kind inner =>
      r.dialect.containerName kind ++ r.dialect.openArguments ++ shape r inner ++
        r.dialect.closeArguments

def tuple (r : Renderer) : List Shape → String
  | [] => ""
  | [part] => shape r part
  | part :: rest => shape r part ++ ", " ++ tuple r rest

def alternatives (r : Renderer) : List Shape → String
  | [] => ""
  | [option] => shape r option
  | option :: rest =>
      r.openSum ++ shape r option ++ r.dialect.sumSeparator ++ alternatives r rest

end

/--
Converts, escapes and numbers names from left to right; `taken` is what came
before.  For fewer than `2 ^ 31 - 1` names a counter of 32 bits is enough.
-/
def identifiers (r : Renderer) (taken : List String) : List String → List String
  | [] => []
  | field :: rest =>
      let (identifier, taken) := Names.claim taken r.escape (r.fieldBase field)
      identifier :: identifiers r taken rest

def fieldNames (r : Renderer) (record : Record) : List String :=
  r.identifiers [] record.fieldNames

def typedFields (r : Renderer) (record : Record) : List (String × String) :=
  (r.fieldNames record).zip (record.fields.values.map r.shape)

/-- A declaration on one line; `gap` stands between the name and the fields. -/
def inlineRecord (r : Renderer) (record : Record) (keyword gap : String) : String :=
  let fields := (r.typedFields record).map fun f => f.1 ++ ": " ++ f.2
  r.config.palette.paintKeyword keyword ++ " " ++
    r.config.palette.paintName (r.typeName record.name) ++ gap ++
    "(" ++ ", ".intercalate fields ++ ")"

def deriveLine (r : Renderer) : String :=
  match r.config.derives with
  | [] => ""
  | derives =>
      r.config.palette.paintDim ("#[derive(" ++ ", ".intercalate derives ++ ")]") ++ "\n"

def structRecord (r : Renderer) (record : Record) : String :=
  let fields := (r.typedFields record).map fun f =>
    "    " ++ r.config.palette.paintKeyword "pub" ++ " " ++ f.1 ++ ": " ++ f.2 ++ ",\n"
  r.deriveLine ++ r.config.palette.paintKeyword "pub struct" ++ " " ++
    r.config.palette.paintName (r.typeName record.name) ++ " \x7b\n" ++
    String.join fields ++ "\x7d"

def record (r : Renderer) (record : Record) : String :=
  match r.dialect with
  | .generic => r.inlineRecord record "record" ""
  | .scala => r.inlineRecord record "case class" " "
  | .rust => r.structRecord record

end Renderer

/-- The text of a shape in the generic dialect with nothing reserved. -/
def Shape.display (s : Shape) : String :=
  (Renderer.ofConfig .default).shape s

end GrammarRecords
