/-
Rule expressions as a grammar file writes them, and the trees that they are
lowered to.

Seven kinds of expression only annotate their content, and they all mean the
same here.  An expression lowers to the children of an alternative: a sequence
to several, anything else to one.  Where a single child is needed, a sequence
becomes a block with one alternative.
-/
import GrammarRecords.Grammar.Basic

namespace GrammarRecords

/-- Annotations without a structure of their own. -/
inductive Wrapper where
  | field
  | aliased
  | prec
  | precLeft
  | precRight
  | precDynamic
  | reserved
deriving DecidableEq, Repr

inductive TokenKind where
  | plain
  | immediate
deriving DecidableEq, Repr

inductive Expression where
  | blank
  | string (value : String)
  | pattern (value : String)
  | symbol (name : String)
  | seq (members : List Expression)
  | choice (members : List Expression)
  | repeat0 (content : Expression)
  | repeat1 (content : Expression)
  | token (kind : TokenKind) (content : Expression)
  | wrapped (wrapper : Wrapper) (content : Expression)

namespace Expression

instance : Inhabited Expression := ⟨.blank⟩

def isBlank : Expression → Bool
  | blank => true
  | _ => false

/-- Whether it is a sequence once annotations are taken off. -/
def isSequence : Expression → Bool
  | seq _ => true
  | wrapped _ content => isSequence content
  | _ => false

def literalText? : Expression → Option String
  | string value | pattern value => some value
  | _ => none

/-- A block, optional if one of the members of the choice was blank. -/
def choiceNode (hasBlank : Bool) (alternatives : List Node) : Node :=
  if hasBlank then .optional [.block alternatives] else .block alternatives

mutual

/-- The children of the alternative that the expression is the content of. -/
def children : Expression → List Node
  | blank => [.other []]
  | string value => [.terminal value]
  | pattern value => [.terminal value]
  | symbol name => [.ruleReference name]
  | seq members => terms members
  | choice members => [choiceNode (members.any isBlank) (branches members)]
  | repeat0 content => [.zeroOrMore [.block [.alternative (children content)]]]
  | repeat1 content => [.oneOrMore [.block [.alternative (children content)]]]
  | token _ content => [.mk .terminal content.literalText? []]
  | wrapped _ content => children content

/-- One child for each member. -/
def terms : List Expression → List Node
  | [] => []
  | e :: rest =>
      (if e.isSequence then [.block [.alternative (children e)]] else children e) ++ terms rest

/-- One alternative for each member that is not blank. -/
def branches : List Expression → List Node
  | [] => []
  | e :: rest =>
      if e.isBlank then branches rest else .alternative (children e) :: branches rest

end

def alternative (e : Expression) : Node := .alternative (children e)

/-- The alternatives of a rule: those of a choice without a blank member, else one. -/
def body : Expression → RuleBody
  | wrapped _ content => body content
  | choice members =>
      if members.any isBlank then ⟨[some (alternative (choice members))]⟩
      else ⟨(branches members).map some⟩
  | e => ⟨[some (alternative e)]⟩

end Expression
end GrammarRecords
