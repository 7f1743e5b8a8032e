/-
The tags that tell the kinds of rule expressions apart in a grammar file.
-/
import GrammarRecords.Grammar.Expression

namespace GrammarRecords

inductive Tag where
  | blank
  | string
  | pattern
  | symbol
  | seq
  | choice
  | repeat0
  | repeat1
  | field
  | aliased
  | token
  | immediateToken
  | prec
  | precLeft
  | precRight
  | precDynamic
  | reserved
deriving DecidableEq, Repr

namespace Tag

/-- In the order of their numbers. -/
def all : List Tag :=
  [blank, string, pattern, symbol, seq, choice, repeat0, repeat1, field, aliased, token,
    immediateToken, prec, precLeft, precRight, precDynamic, reserved]

def name : Tag → String
  | blank => "BLANK"
  | string => "STRING"
  | pattern => "PATTERN"
  | symbol => "SYMBOL"
  | seq => "SEQ"
  | choice => "CHOICE"
  | repeat0 => "REPEAT"
  | repeat1 => "REPEAT1"
  | field => "FIELD"
  | aliased => "ALIAS"
  | token => "TOKEN"
  | immediateToken => "IMMEDIATE_TOKEN"
  | prec => "PREC"
  | precLeft => "PREC_LEFT"
  | precRight => "PREC_RIGHT"
  | precDynamic => "PREC_DYNAMIC"
  | reserved => "RESERVED"

def ofName? (s : String) : Option Tag := all.find? fun t => t.name = s

def ofNumber? (n : Nat) : Option Tag := all[n]?

/-- What an expression with the tag is made of. -/
inductive Payload where
  | nothing
  | text (build : String → Expression)
  | expression (build : Expression → Expression)
  | expressions (build : List Expression → Expression)

def payload : Tag → Payload
  | blank => .nothing
  | string => .text .string
  | pattern => .text .pattern
  | symbol => .text .symbol
  | seq => .expressions .seq
  | choice => .expressions .choice
  | repeat0 => .expression .repeat0
  | repeat1 => .expression .repeat1
  | token => .expression (.token .plain)
  | immediateToken => .expression (.token .immediate)
  | field => .expression (.wrapped .field)
  | aliased => .expression (.wrapped .aliased)
  | prec => .expression (.wrapped .prec)
  | precLeft => .expression (.wrapped .precLeft)
  | precRight => .expression (.wrapped .precRight)
  | precDynamic => .expression (.wrapped .precDynamic)
  | reserved => .expression (.wrapped .reserved)

def key? : Tag → Option String
  | blank => none
  | string | pattern => some "value"
  | symbol => some "name"
  | seq | choice => some "members"
  | _ => some "content"

end Tag
end GrammarRecords
