/-
The text of a type, piece by piece.

A type is written from words of the dialect, punctuation and references to
rules, and how a reference is written is the only thing about it that depends on
the renderer.  `shape_eq_write` says that the renderer writes the pieces of the
binary form in their order, so what the text says about a rule can be read off
the pieces.
-/
import GrammarRecords.Proofs.Shape.BinarySums
import GrammarRecords.Render.Renderer

namespace GrammarRecords

inductive Piece where
  | word (text : String)
  | mark (text : String)
  | reference (rule : String)
deriving DecidableEq

namespace Renderer

def writePiece (r : Renderer) : Piece → String
  | .word text => text
  | .mark text => text
  | .reference rule => r.reference rule

def write (r : Renderer) : List Piece → String
  | [] => ""
  | piece :: rest => r.writePiece piece ++ r.write rest

@[simp] theorem write_nil (r : Renderer) : r.write [] = "" := rfl

@[simp] theorem write_word (r : Renderer) (text : String) (rest : List Piece) :
    r.write (.word text :: rest) = text ++ r.write rest := rfl

@[simp] theorem write_mark (r : Renderer) (text : String) (rest : List Piece) :
    r.write (.mark text :: rest) = text ++ r.write rest := rfl

@[simp] theorem write_reference (r : Renderer) (rule : String) (rest : List Piece) :
    r.write (.reference rule :: rest) = r.reference rule ++ r.write rest := rfl

@[simp] theorem write_append (r : Renderer) (front back : List Piece) :
    r.write (front ++ back) = r.write front ++ r.write back := by
  induction front with
  | nil => exact String.empty_append.symm
  | cons piece rest ih =>
      rw [List.cons_append, write, write, ih, String.append_assoc]

end Renderer

namespace BinaryShape

mutual

def pieces (d : Dialect) : BinaryShape → List Piece
  | .empty => [.word d.scalar]
  | .rule name => [.reference name]
  | .sequence parts => .mark d.openTuple :: (partPieces d parts ++ [.mark d.closeTuple])
  | .sum left right =>
      .word d.sumName :: .mark d.openArguments :: (pieces d left ++
        .mark d.sumSeparator :: (pieces d right ++ [.mark d.closeArguments]))
  | .container kind inner =>
      .word (d.containerName kind) :: .mark d.openArguments :: (pieces d inner ++
        [.mark d.closeArguments])

def partPieces (d : Dialect) : List BinaryShape → List Piece
  | [] => []
  | [part] => pieces d part
  | part :: rest => pieces d part ++ .mark ", " :: partPieces d rest

end

theorem partPieces_cons (d : Dialect) (part next : BinaryShape) (rest : List BinaryShape) :
    partPieces d (part :: next :: rest) =
      pieces d part ++ .mark ", " :: partPieces d (next :: rest) := by
  rw [partPieces]
  exact List.cons_ne_nil next rest

mutual

theorem reference_mem_pieces (d : Dialect) (rule : String) :
    ∀ b : BinaryShape, .reference rule ∈ b.pieces d ↔ rule ∈ b.references
  | .empty => by simp [pieces, references]
  | .rule name => by simp [pieces, references]
  | .sequence parts => by
      simp [pieces, references, reference_mem_partPieces d rule parts]
  | .sum left right => by
      simp [pieces, references, reference_mem_pieces d rule left, reference_mem_pieces d rule right]
  | .container kind inner => by
      simp [pieces, references, reference_mem_pieces d rule inner]

theorem reference_mem_partPieces (d : Dialect) (rule : String) :
    ∀ parts : List BinaryShape,
      .reference rule ∈ partPieces d parts ↔ rule ∈ referencesOfParts parts
  | [] => by simp [partPieces, referencesOfParts]
  | [part] => by
      simp [partPieces, referencesOfParts, reference_mem_pieces d rule part]
  | part :: next :: rest => by
      have hfirst := reference_mem_pieces d rule part
      have hrest := reference_mem_partPieces d rule (next :: rest)
      rw [partPieces_cons, referencesOfParts, List.mem_append, List.mem_append, List.mem_cons,
        hfirst, hrest]
      simp

end

end BinaryShape

namespace Renderer

open Shape

theorem tuple_cons (r : Renderer) (part next : Shape) (rest : List Shape) :
    r.tuple (part :: next :: rest) = r.shape part ++ ", " ++ r.tuple (next :: rest) := by
  rw [tuple]
  exact List.cons_ne_nil next rest

theorem shape_choice_singleton (r : Renderer) (option : Shape) :
    r.shape (.choice [option]) = r.shape option := by
  rw [shape, alternatives, closeSums, String.append_empty]

/-- A sum of more options is that of the first and the sum of the others. -/
theorem shape_choice_cons (r : Renderer) (option next : Shape) (rest : List Shape) :
    r.shape (.choice (option :: next :: rest)) =
      r.openSum ++ r.shape option ++ r.dialect.sumSeparator ++ r.shape (.choice (next :: rest)) ++
        r.dialect.closeArguments := by
  have hoptions : r.alternatives (option :: next :: rest) =
      r.openSum ++ r.shape option ++ r.dialect.sumSeparator ++
        r.alternatives (next :: rest) := by
    rw [alternatives]
    exact List.cons_ne_nil next rest
  have hclose : r.closeSums (option :: next :: rest) =
      r.closeSums (next :: rest) ++ r.dialect.closeArguments := rfl
  rw [shape, shape, hoptions, hclose]
  simp only [String.append_assoc]

mutual

/-- The type of a shape is the text of the pieces of its binary form. -/
theorem shape_eq_write (r : Renderer) : ∀ s : Shape,
    r.shape s = r.write (s.binary.pieces r.dialect)
  | .empty => by simp [shape, binary, BinaryShape.pieces]
  | .rule name => by simp [shape, binary, BinaryShape.pieces]
  | .sequence parts => by
      rw [shape, tuple_eq_write r parts, binary, BinaryShape.pieces]
      simp [String.append_assoc]
  | .choice options => by rw [binary, choice_eq_write r options]
  | .container kind inner => by
      rw [shape, shape_eq_write r inner, binary, BinaryShape.pieces]
      simp [String.append_assoc]

theorem tuple_eq_write (r : Renderer) : ∀ parts : List Shape,
    r.tuple parts = r.write (BinaryShape.partPieces r.dialect (binaryParts parts))
  | [] => rfl
  | [part] => by
      rw [tuple, shape_eq_write r part, binaryParts, binaryParts, BinaryShape.partPieces]
  | part :: next :: rest => by
      have hparts : binaryParts (part :: next :: rest) =
          part.binary :: next.binary :: binaryParts rest := rfl
      rw [tuple_cons, shape_eq_write r part, tuple_eq_write r (next :: rest), hparts,
        BinaryShape.partPieces_cons, write_append, write_mark, String.append_assoc]
      rfl

theorem choice_eq_write (r : Renderer) : ∀ options : List Shape,
    r.shape (.choice options) = r.write ((binarySum options).pieces r.dialect)
  | [] => by simp [shape, binarySum, BinaryShape.pieces]
  | [option] => by rw [shape_choice_singleton, shape_eq_write r option, binarySum]
  | option :: next :: rest => by
      rw [shape_choice_cons, shape_eq_write r option, choice_eq_write r (next :: rest),
        binarySum_cons, BinaryShape.pieces]
      simp [openSum, String.append_assoc]

end

end Renderer
end GrammarRecords
