/-
Annotations around the parts of a rule expression.

A place in an expression is given by the layers around it, from the outside in;
`fill` puts an expression there.  An annotation at a place changes the lowered
rule exactly where lowering inspects what is written there: it asks an option
whether it is blank, and the content of a token for its text, of the expression
as it stands and not of what its annotations are around.  Everywhere else
annotations are recursed through or taken off first.

The proof goes from the place outwards.  `AlikeIff p a b` says that lowering
tells `a` and `b` apart unless `p`, and one layer around both keeps it, except
that below a token nothing is told apart.  `body_annotated_iff` collects the
layers.
-/
import GrammarRecords.Grammar.Expression

namespace GrammarRecords
namespace Expression

/-! ## Places -/

/-- A layer around one part of an expression. -/
inductive Frame where
  | member (before after : List Expression)
  | option (before after : List Expression)
  | repeat0
  | repeat1
  | token (kind : TokenKind)
  | wrapped (wrapper : Wrapper)

namespace Frame

def around : Frame → Expression → Expression
  | member before after, e => .seq (before ++ e :: after)
  | option before after, e => .choice (before ++ e :: after)
  | repeat0, e => .repeat0 e
  | repeat1, e => .repeat1 e
  | token kind, e => .token kind e
  | wrapped wrapper, e => .wrapped wrapper e

def isToken : Frame → Bool
  | token _ => true
  | _ => false

/-- Whether lowering finds in the part, as it is written, what the layer asks for. -/
def inspects : Frame → Expression → Bool
  | option _ _, e => e.isBlank
  | token _, e => e.literalText?.isSome
  | _, _ => false

end Frame

/-- The expression that has `e` at a place; the outermost layer comes first. -/
def fill : List Frame → Expression → Expression
  | [], e => e
  | frame :: place, e => frame.around (fill place e)

/-- Whether the innermost layer inspects `e`.  What is deeper in a token is not lowered. -/
def inspectedAt : List Frame → Expression → Bool
  | [], _ => false
  | [frame], e => frame.inspects e
  | frame :: place, e => !frame.isToken && inspectedAt place e

/-- A layer is neither blank nor a literal. -/
theorem inspects_around (outer frame : Frame) (e : Expression) :
    outer.inspects (frame.around e) = false := by
  cases outer <;> cases frame <;> rfl

theorem inspects_wrapped (frame : Frame) (wrapper : Wrapper) (e : Expression) :
    frame.inspects (.wrapped wrapper e) = false :=
  inspects_around frame (.wrapped wrapper) e

/-! ## Lists of parts -/

theorem terms_append (es fs : List Expression) : terms (es ++ fs) = terms es ++ terms fs := by
  induction es with
  | nil => rfl
  | cons e es ih => rw [List.cons_append, terms, terms, ih, List.append_assoc]

theorem branches_append (es fs : List Expression) :
    branches (es ++ fs) = branches es ++ branches fs := by
  induction es with
  | nil => rfl
  | cons e es ih =>
      rw [List.cons_append, branches, branches, ih]
      cases e.isBlank with
      | true => rfl
      | false => rfl

theorem branches_cons_of_not_isBlank {e : Expression} (h : e.isBlank = false)
    (rest : List Expression) :
    branches (e :: rest) = .alternative e.children :: branches rest := by
  rw [branches, h]
  rfl

/-- A blank option has no alternative. -/
theorem branches_blank (before after : List Expression) :
    branches (before ++ .blank :: after) = branches before ++ branches after := by
  rw [branches_append]
  rfl

/-- An annotated blank option has one. -/
theorem branches_annotated_blank (wrapper : Wrapper) (before after : List Expression) :
    branches (before ++ .wrapped wrapper .blank :: after) =
      branches before ++ .alternative [.other []] :: branches after := by
  rw [branches_append, branches_cons_of_not_isBlank rfl, children, children]

/-- Members are told apart by their children if both or neither of them need a block. -/
theorem terms_member_iff {a b : Expression} (h : a.isSequence = b.isSequence)
    (before after : List Expression) :
    terms (before ++ a :: after) = terms (before ++ b :: after) ↔ a.children = b.children := by
  rw [terms_append, terms_append, List.append_right_inj, terms, terms, List.append_left_inj, h]
  cases b.isSequence with
  | true => simp [Node.block, Node.alternative]
  | false => exact Iff.rfl

theorem branches_option_iff {a b : Expression} (ha : a.isBlank = false) (hb : b.isBlank = false)
    (before after : List Expression) :
    branches (before ++ a :: after) = branches (before ++ b :: after) ↔
      a.children = b.children := by
  rw [branches_append, branches_append, List.append_right_inj, branches_cons_of_not_isBlank ha,
    branches_cons_of_not_isBlank hb]
  simp [Node.alternative]

theorem choiceNode_inj {hasBlank : Bool} {ns ms : List Node} :
    choiceNode hasBlank ns = choiceNode hasBlank ms ↔ ns = ms := by
  cases hasBlank with
  | true => simp [choiceNode, Node.optional, Node.block]
  | false => simp [choiceNode, Node.block]

/-- A choice with a blank option is told from another choice by the number of alternatives. -/
theorem choiceNode_ne {hasBlank : Bool} {ns ms : List Node} (h : ns.length ≠ ms.length) :
    choiceNode hasBlank ns ≠ choiceNode true ms := by
  intro he
  cases hasBlank with
  | true => exact h (congrArg List.length (choiceNode_inj.mp he))
  | false =>
      injection he with hkind
      cases hkind

theorem body_choice_of_blank {members : List Expression} (h : members.any isBlank = true) :
    body (.choice members) = ⟨[some (alternative (.choice members))]⟩ := by
  rw [body, if_pos h]

theorem body_choice_of_no_blank {members : List Expression} (h : members.any isBlank = false) :
    body (.choice members) = ⟨(branches members).map some⟩ := by
  rw [body, h]
  rfl

theorem group_inj {kind : NodeKind} {a b : Expression} :
    ([.mk kind none [.block [.alternative a.children]]] : List Node) =
        [.mk kind none [.block [.alternative b.children]]] ↔ a.children = b.children := by
  simp [Node.block, Node.alternative]

/-! ## One layer -/

/-- Lowering makes the same of `a` and `b` exactly if `p`; both or neither need a block. -/
structure AlikeIff (p : Prop) (a b : Expression) : Prop where
  isSequence : a.isSequence = b.isSequence
  children : a.children = b.children ↔ p
  body : a.body = b.body ↔ p

namespace AlikeIff

variable {p q : Prop} {a b : Expression}

theorem congr (h : AlikeIff p a b) (hpq : p ↔ q) : AlikeIff q a b :=
  ⟨h.isSequence, h.children.trans hpq, h.body.trans hpq⟩

/-- A rule with one alternative is no more than the children of the alternative. -/
theorem ofChildren (hsequence : a.isSequence = b.isSequence) (h : a.children = b.children ↔ p)
    (ha : a.body = ⟨[some (alternative a)]⟩) (hb : b.body = ⟨[some (alternative b)]⟩) :
    AlikeIff p a b := by
  refine ⟨hsequence, h, ?_⟩
  rw [ha, hb, ← h]
  simp [alternative, Node.alternative]

theorem annotation (wrapper : Wrapper) (e : Expression) :
    AlikeIff True (.wrapped wrapper e) e where
  isSequence := rfl
  children := iff_true_intro (by rw [Expression.children])
  body := iff_true_intro rfl

theorem member (h : AlikeIff p a b) (before after : List Expression) :
    AlikeIff p (.seq (before ++ a :: after)) (.seq (before ++ b :: after)) := by
  refine ofChildren rfl ?_ rfl rfl
  rw [Expression.children, Expression.children, terms_member_iff h.isSequence]
  exact h.children

theorem option (h : AlikeIff p a b) (ha : a.isBlank = false) (hb : b.isBlank = false)
    (before after : List Expression) :
    AlikeIff p (.choice (before ++ a :: after)) (.choice (before ++ b :: after)) := by
  have hany : (before ++ a :: after).any isBlank = (before ++ b :: after).any isBlank := by
    rw [List.any_append, List.any_append, List.any_cons, List.any_cons, ha, hb]
  have hbranches := (branches_option_iff ha hb before after).trans h.children
  have hchildren : Expression.children (.choice (before ++ a :: after)) =
      Expression.children (.choice (before ++ b :: after)) ↔ p := by
    rw [Expression.children, Expression.children, hany, List.singleton_inj, choiceNode_inj]
    exact hbranches
  cases hblank : (before ++ b :: after).any isBlank with
  | true =>
      exact ofChildren rfl hchildren (body_choice_of_blank (hany.trans hblank))
        (body_choice_of_blank hblank)
  | false =>
      refine ⟨rfl, hchildren, ?_⟩
      rw [body_choice_of_no_blank (hany.trans hblank), body_choice_of_no_blank hblank,
        RuleBody.mk.injEq, List.map_inj_right fun _ _ => Option.some.inj]
      exact hbranches

theorem repeat0 (h : AlikeIff p a b) : AlikeIff p (.repeat0 a) (.repeat0 b) := by
  refine ofChildren rfl ?_ rfl rfl
  rw [Expression.children, Expression.children]
  exact group_inj.trans h.children

theorem repeat1 (h : AlikeIff p a b) : AlikeIff p (.repeat1 a) (.repeat1 b) := by
  refine ofChildren rfl ?_ rfl rfl
  rw [Expression.children, Expression.children]
  exact group_inj.trans h.children

/-- A token has the text of its content and nothing else of it. -/
theorem token (kind : TokenKind) :
    AlikeIff (a.literalText? = b.literalText?) (.token kind a) (.token kind b) := by
  refine ofChildren rfl ?_ rfl rfl
  rw [Expression.children, Expression.children]
  simp

theorem wrapped (h : AlikeIff p a b) (wrapper : Wrapper) :
    AlikeIff p (.wrapped wrapper a) (.wrapped wrapper b) where
  isSequence := h.isSequence
  children := by
    rw [Expression.children, Expression.children]
    exact h.children
  body := h.body

/-- What a layer does not inspect it passes on, and a token passes on nothing. -/
theorem around {frame : Frame} (h : AlikeIff p a b) (ha : frame.inspects a = false)
    (hb : frame.inspects b = false) :
    AlikeIff (frame.isToken = true ∨ p) (frame.around a) (frame.around b) := by
  have hpass : p ↔ false = true ∨ p := by simp
  cases frame with
  | member before after => exact (h.member before after).congr hpass
  | option before after => exact (h.option ha hb before after).congr hpass
  | repeat0 => exact h.repeat0.congr hpass
  | repeat1 => exact h.repeat1.congr hpass
  | wrapped wrapper => exact (h.wrapped wrapper).congr hpass
  | token kind =>
      have hnone : a.literalText? = b.literalText? := by
        rw [Option.not_isSome_iff_eq_none.mp (Bool.eq_false_iff.mp ha),
          Option.not_isSome_iff_eq_none.mp (Bool.eq_false_iff.mp hb)]
      exact (token kind).congr (iff_of_true hnone (Or.inl rfl))

/-- An annotated blank option is one more alternative and makes nothing optional. -/
theorem blankOption (wrapper : Wrapper) (before after : List Expression) :
    AlikeIff False (.choice (before ++ .wrapped wrapper .blank :: after))
      (.choice (before ++ .blank :: after)) := by
  have hblank : (before ++ .blank :: after).any isBlank = true := by simp [isBlank]
  have hlength : (branches (before ++ .wrapped wrapper .blank :: after)).length ≠
      (branches (before ++ .blank :: after)).length := by
    rw [branches_annotated_blank, branches_blank, List.length_append, List.length_append,
      List.length_cons]
    omega
  have hchildren : Expression.children (.choice (before ++ .wrapped wrapper .blank :: after)) ≠
      Expression.children (.choice (before ++ .blank :: after)) := by
    rw [Expression.children, Expression.children, hblank]
    exact fun he => choiceNode_ne hlength (List.singleton_inj.mp he)
  have hbody := body_choice_of_blank hblank
  cases hothers : (before ++ .wrapped wrapper .blank :: after).any isBlank with
  | true => exact ofChildren rfl (iff_false_intro hchildren) (body_choice_of_blank hothers) hbody
  | false =>
      refine ⟨rfl, iff_false_intro hchildren, iff_false_intro ?_⟩
      rw [hbody, body_choice_of_no_blank hothers, branches_annotated_blank]
      intro he
      -- The alternative of the annotated option would have to be the whole optional block.
      have hmem : some (.alternative [.other []]) ∈
          [some (alternative (.choice (before ++ .blank :: after)))] := by
        rw [← RuleBody.mk.inj he]
        simp
      rw [List.mem_singleton, alternative, Expression.children, hblank] at hmem
      simp [Node.alternative, Node.other, choiceNode, Node.optional] at hmem

/-- An annotated literal is not taken for the text of a token. -/
theorem literalContent {e : Expression} (h : e.literalText?.isSome = true) (kind : TokenKind)
    (wrapper : Wrapper) :
    AlikeIff False (.token kind (.wrapped wrapper e)) (.token kind e) := by
  refine (token kind).congr (iff_false_intro ?_)
  intro he
  rw [← he] at h
  cases h

/-- Where a layer inspects a part, an annotation around the part shows. -/
theorem inspected {frame : Frame} {e : Expression} (h : frame.inspects e = true)
    (wrapper : Wrapper) :
    AlikeIff False (frame.around (.wrapped wrapper e)) (frame.around e) := by
  cases frame with
  | option before after =>
      cases e with
      | blank => exact blankOption wrapper before after
      | _ => cases h
  | token kind => exact literalContent h kind wrapper
  | _ => cases h

end AlikeIff

/-! ## All layers -/

theorem alikeIff_fill (place : List Frame) (wrapper : Wrapper) (e : Expression) :
    AlikeIff (inspectedAt place e = false) (fill place (.wrapped wrapper e)) (fill place e) := by
  induction place with
  | nil => exact (AlikeIff.annotation wrapper e).congr (iff_of_true trivial rfl)
  | cons frame place ih =>
      cases place with
      | nil =>
          show AlikeIff (frame.inspects e = false) _ _
          cases h : frame.inspects e with
          | true => exact (AlikeIff.inspected h wrapper).congr (by simp)
          | false =>
              exact ((AlikeIff.annotation wrapper e).around (inspects_wrapped frame wrapper e) h).congr
                (by simp)
      | cons next place =>
          have houter := ih.around (inspects_around frame next _)
            (inspects_around frame next _)
          have hstep : inspectedAt (frame :: next :: place) e =
              (!frame.isToken && inspectedAt (next :: place) e) := rfl
          rw [hstep]
          refine houter.congr ?_
          cases frame.isToken with
          | true => simp
          | false => simp

/--
An annotation leaves the lowered rule as it is, whichever it is and wherever in
the expression it stands, unless lowering inspects what it is put around: a
blank option of a choice, or the literal that is the content of a token, outside
the contents of tokens.
-/
theorem body_annotated_iff (place : List Frame) (wrapper : Wrapper) (e : Expression) :
    (fill place (.wrapped wrapper e)).body = (fill place e).body ↔ inspectedAt place e = false :=
  (alikeIff_fill place wrapper e).body

/-- A blank option that is annotated, and a token whose pattern is. -/
theorem not_transparent_prec :
    (fill [.option [.symbol "word"] []] (.wrapped .prec .blank)).body ≠
        (fill [.option [.symbol "word"] []] .blank).body ∧
      (fill [.token .plain] (.wrapped .prec (.pattern "[a-z]+"))).body ≠
        (fill [.token .plain] (.pattern "[a-z]+")).body := by
  decide

end Expression
end GrammarRecords
