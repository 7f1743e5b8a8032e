/-
The three target dialects and the words each of them uses for types.
-/
import GrammarRecords.Shape.Basic

namespace GrammarRecords

inductive Dialect where
  | generic
  | scala
  | rust
deriving DecidableEq, Repr, Inhabited

namespace Dialect

def all : List Dialect := [generic, scala, rust]

def name : Dialect → String
  | generic => "generic"
  | scala => "scala"
  | rust => "rust"

def ofName? (name : String) : Option Dialect :=
  all.find? fun d => d.name = name

def scalar : Dialect → String
  | _ => "String"

def sumName : Dialect → String
  | generic => "Sum"
  | scala | rust => "Either"

def containerName : Dialect → ContainerKind → String
  | rust, .list | rust, .nonEmptyList => "Vec"
  | rust, .optional | scala, .optional => "Option"
  | generic, .optional => "Optional"
  | generic, .list | scala, .list => "List"
  | generic, .nonEmptyList | scala, .nonEmptyList => "NonEmptyList"

def openArguments : Dialect → String
  | scala => "["
  | generic | rust => "<"

def closeArguments : Dialect → String
  | scala => "]"
  | generic | rust => ">"

def sumSeparator : Dialect → String
  | scala => ","
  | generic | rust => ", "

def openTuple : Dialect → String
  | scala => "( "
  | generic | rust => "("

def closeTuple : Dialect → String
  | scala => " )"
  | generic | rust => ")"

end Dialect

/-- The pointer that stands between a record and a record that contains it. -/
inductive Indirection where
  | box
  | rc
  | arc
deriving DecidableEq, Repr, Inhabited

namespace Indirection

def typeName : Indirection → String
  | box => "Box"
  | rc => "Rc"
  | arc => "Arc"

def wrap (i : Indirection) (type : String) : String :=
  i.typeName ++ "<" ++ type ++ ">"

end Indirection
end GrammarRecords
