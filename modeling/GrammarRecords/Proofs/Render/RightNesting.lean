/-
Sums nested to the right.

A sum of many options has the text of a sum of two, the second of which is the
sum of the other options.  `nestRight` writes the options out in this way, and
`rightNested` does so for every choice of more than two options in a shape.
Both leave the binary form of a shape as it is, and the text of a type is the
text of its binary form, hence `shape_rightNested`: neither one choice in any
surrounding nor all of them can be told from their nested form.
-/
import GrammarRecords.Proofs.Render.TypeText

namespace GrammarRecords
namespace Shape

/-! ## Nesting -/

/-- The choice of two options at most that stands for a choice of all. -/
def nestRight : List Shape → Shape
  | first :: second :: third :: rest => .choice [first, nestRight (second :: third :: rest)]
  | options => .choice options

example : nestRight [.rule "a", .rule "b", .rule "c", .empty] =
    .choice [.rule "a", .choice [.rule "b", .choice [.rule "c", .empty]]] := rfl

mutual

/-- Every choice of more than two options is nested, at any depth. -/
def rightNested : Shape → Shape
  | .empty => .empty
  | .rule name => .rule name
  | .sequence parts => .sequence (rightNestedAll parts)
  | .choice options => nestRight (rightNestedAll options)
  | .container kind inner => .container kind (rightNested inner)

def rightNestedAll : List Shape → List Shape
  | [] => []
  | s :: rest => rightNested s :: rightNestedAll rest

end

/-! ## Surroundings -/

/-- A layer around one member of a shape. -/
inductive Frame where
  | part (before after : List Shape)
  | option (before after : List Shape)
  | inner (kind : ContainerKind)

def Frame.around : Frame → Shape → Shape
  | .part before after, s => .sequence (before ++ s :: after)
  | .option before after, s => .choice (before ++ s :: after)
  | .inner kind, s => .container kind s

/-- The shape that has `s` inside the layers; the outermost comes first. -/
def fill : List Frame → Shape → Shape
  | [], s => s
  | frame :: surrounding, s => frame.around (fill surrounding s)

/-! ## The binary form -/

theorem binaryParts_eq_map (members : List Shape) : binaryParts members = members.map binary := by
  induction members with
  | nil => rfl
  | cons s rest ih => rw [binaryParts, ih, List.map_cons]

/-- A sum is made of the forms of its options. -/
theorem binarySum_congr : ∀ {options others : List Shape},
    binaryParts options = binaryParts others → binarySum options = binarySum others
  | [], [], _ => rfl
  | [option], [other], h => (List.cons.inj h).1
  | [option], other :: next :: rest, h => nomatch (List.cons.inj h).2
  | option :: next :: rest, [other], h => nomatch (List.cons.inj h).2
  | option :: next :: rest, other :: next' :: rest', h => by
      obtain ⟨hfirst, hrest⟩ := List.cons.inj h
      rw [binarySum_cons, binarySum_cons, hfirst, binarySum_congr hrest]

theorem binary_nestRight (options : List Shape) :
    (nestRight options).binary = binarySum options := by
  fun_induction nestRight options with
  | case1 first second third rest ih =>
      rw [binary, binarySum_cons, binarySum, ih, binarySum_cons first]
  | case2 options => rw [binary]

mutual

theorem binary_rightNested : ∀ s : Shape, s.rightNested.binary = s.binary
  | .empty => rfl
  | .rule _ => rfl
  | .sequence parts => by
      rw [rightNested, binary, binary, binaryParts_rightNestedAll parts]
  | .choice options => by
      rw [rightNested, binary_nestRight, binary]
      exact binarySum_congr (binaryParts_rightNestedAll options)
  | .container kind inner => by
      rw [rightNested, binary, binary, binary_rightNested inner]

theorem binaryParts_rightNestedAll : ∀ members : List Shape,
    binaryParts (rightNestedAll members) = binaryParts members
  | [] => rfl
  | s :: rest => by
      rw [rightNestedAll, binaryParts, binaryParts, binary_rightNested s,
        binaryParts_rightNestedAll rest]

end

theorem binary_around_congr {s t : Shape} (h : s.binary = t.binary) (frame : Frame) :
    (frame.around s).binary = (frame.around t).binary := by
  have hmembers : ∀ before after : List Shape,
      binaryParts (before ++ s :: after) = binaryParts (before ++ t :: after) := by
    intro before after
    rw [binaryParts_eq_map, binaryParts_eq_map, List.map_append, List.map_append, List.map_cons,
      List.map_cons, h]
  cases frame with
  | part before after =>
      show binary (.sequence _) = binary (.sequence _)
      rw [binary, binary, hmembers before after]
  | option before after =>
      show binary (.choice _) = binary (.choice _)
      rw [binary, binary, binarySum_congr (hmembers before after)]
  | inner kind =>
      show binary (.container kind s) = binary (.container kind t)
      rw [binary, binary, h]

theorem binary_fill_congr {s t : Shape} (h : s.binary = t.binary) (surrounding : List Frame) :
    (fill surrounding s).binary = (fill surrounding t).binary := by
  induction surrounding with
  | nil => exact h
  | cons frame surrounding ih => exact binary_around_congr ih frame

end Shape

/-! ## The text -/

namespace Renderer

open Shape

/-- The text of a type does not tell apart what has one binary form. -/
theorem shape_congr (r : Renderer) {s t : Shape} (h : s.binary = t.binary) :
    r.shape s = r.shape t := by
  rw [shape_eq_write, shape_eq_write, h]

/--
Whatever the renderer, a choice in any surrounding has the text of its nested
form there, and a shape the text that it has with all its choices nested.
-/
theorem shape_rightNested (r : Renderer) :
    (∀ surrounding options,
      r.shape (fill surrounding (.choice options)) =
        r.shape (fill surrounding (nestRight options))) ∧
    ∀ s : Shape, r.shape s.rightNested = r.shape s := by
  constructor
  · intro surrounding options
    have hone : (Shape.choice options).binary = (nestRight options).binary := by
      rw [binary_nestRight, binary]
    exact r.shape_congr (binary_fill_congr hone surrounding)
  · intro s
    exact r.shape_congr (binary_rightNested s)

end Renderer
end GrammarRecords
