/-
JSON values.

Members of an object are kept in text order with repetitions, because a reader
of a grammar reacts to both.  A number is a natural below `2 ^ 64`, a negative
integer, or a binary64 number with a sign of its own (true for minus).
-/
import GrammarRecords.Decimal.Shortest

namespace GrammarRecords
namespace Json

inductive Number where
  | natural (n : Nat)
  | negative (magnitude : Nat)
  | float (sign : Bool) (magnitude : Decimal.Binary64)
deriving DecidableEq, Repr

def Number.text : Number → String
  | .natural n => toString n
  | .negative n => "-" ++ toString n
  | .float sign x => Decimal.text sign x

inductive Value where
  | null
  | bool (b : Bool)
  | number (n : Number)
  | string (s : String)
  | array (elements : List Value)
  | object (members : List (String × Value))

instance : Inhabited Value := ⟨.null⟩

/-- What an error message tells about a value: scalars in full, the others by sort. -/
inductive Outline where
  | null
  | bool (b : Bool)
  | number (n : Number)
  | string (s : String)
  | sequence
  | map
deriving DecidableEq, Repr

def Value.outline : Value → Outline
  | .null => .null
  | .bool b => .bool b
  | .number n => .number n
  | .string s => .string s
  | .array _ => .sequence
  | .object _ => .map

end Json
end GrammarRecords
