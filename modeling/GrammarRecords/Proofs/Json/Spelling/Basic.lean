/-
Readers and the texts that they read.

What a text spells is told by rules that mention no reader.  A reader agrees with
the rules if on a text that spells something, with any text behind it, it finds
just that and leaves what is behind: `Finds`, `Reaches`.  For this the place where
a text starts does not count, and neither does the error of a reader that finds
nothing.  A number is the one thing that another text behind it could continue, so
nothing of that sort may follow (`Ends`).
-/
import GrammarRecords.Json.Cursor
import Mathlib.Data.List.TakeWhile

namespace GrammarRecords
namespace Json

section

variable {ε ε' α β : Type} {rest rest' : List Char}

/-- The reader finds this value and leaves this text, or fails if there is no value. -/
def Finds (r : Except ε (α × Cursor)) (found : Option α) (rest : List Char) : Prop :=
  match found with
  | some a => ∃ q, r = .ok (a, ⟨rest, q⟩)
  | none => ∃ e, r = .error e

def Reaches (r : Except ε Cursor) (rest : List Char) : Prop :=
  ∃ q, r = .ok ⟨rest, q⟩

theorem Finds.ok (a : α) (rest : List Char) (q : Position) :
    Finds (.ok (a, ⟨rest, q⟩) : Except ε (α × Cursor)) (some a) rest := ⟨q, rfl⟩

theorem Finds.error (e : ε) (rest : List Char) :
    Finds (.error e : Except ε (α × Cursor)) none rest := ⟨e, rfl⟩

theorem Finds.bind {r : Except ε (α × Cursor)} {found : Option α}
    {f : α × Cursor → Except ε (β × Cursor)} {g : α → Option β} (h : Finds r found rest)
    (hf : ∀ a q, found = some a → Finds (f (a, ⟨rest, q⟩)) (g a) rest') :
    Finds (r >>= f) (found.bind g) rest' := by
  cases found with
  | none =>
      obtain ⟨e, rfl⟩ := h
      exact ⟨e, rfl⟩
  | some a =>
      obtain ⟨q, rfl⟩ := h
      exact hf a q rfl

theorem Finds.then {r : Except ε (α × Cursor)} {a : α} {found : Option β}
    {f : α × Cursor → Except ε (β × Cursor)} (h : Finds r (some a) rest)
    (hf : ∀ q, Finds (f (a, ⟨rest, q⟩)) found rest') : Finds (r >>= f) found rest' :=
  h.bind (g := fun _ => found) fun _ q ha => Option.some.inj ha ▸ hf q

theorem Finds.map {r : Except ε (α × Cursor)} {found : Option α}
    {f : α × Cursor → Except ε (β × Cursor)} {g : α → β} (h : Finds r found rest)
    (hf : ∀ a q, ∃ q', f (a, ⟨rest, q⟩) = .ok (g a, ⟨rest', q'⟩)) :
    Finds (r >>= f) (found.map g) rest' := by
  rw [Option.map_eq_bind]
  exact h.bind fun a q _ => hf a q

theorem Finds.mapError {r : Except ε (α × Cursor)} {found : Option α} (h : Finds r found rest)
    (f : ε → ε') : Finds (r.mapError f) found rest := by
  cases found with
  | none =>
      obtain ⟨e, rfl⟩ := h
      exact ⟨f e, rfl⟩
  | some a =>
      obtain ⟨q, rfl⟩ := h
      exact ⟨q, rfl⟩

theorem Reaches.ok (rest : List Char) (q : Position) :
    Reaches (.ok ⟨rest, q⟩ : Except ε Cursor) rest := ⟨q, rfl⟩

theorem Reaches.finds {r : Except ε Cursor} {found : Option β}
    {f : Cursor → Except ε (β × Cursor)} (h : Reaches r rest)
    (hf : ∀ q, Finds (f ⟨rest, q⟩) found rest') : Finds (r >>= f) found rest' := by
  obtain ⟨q, rfl⟩ := h
  exact hf q

theorem Reaches.bind {r : Except ε Cursor} {f : Cursor → Except ε Cursor} (h : Reaches r rest)
    (hf : ∀ q, Reaches (f ⟨rest, q⟩) rest') : Reaches (r >>= f) rest' := by
  obtain ⟨q, rfl⟩ := h
  exact hf q

theorem Reaches.mapError {r : Except ε Cursor} (h : Reaches r rest) (f : ε → ε') :
    Reaches (r.mapError f) rest := by
  obtain ⟨q, rfl⟩ := h
  exact ⟨q, rfl⟩

end

/-! ## Blanks -/

def Blank (cs : List Char) : Prop := ∀ c ∈ cs, Cursor.isBlank c = true

theorem Blank.nil : Blank [] := List.forall_mem_nil _

theorem Blank.append {b b' : List Char} (h : Blank b) (h' : Blank b') : Blank (b ++ b') :=
  List.forall_mem_append.mpr ⟨h, h'⟩

namespace Cursor

theorem rest_skipBlank (c : Cursor) : c.skipBlank.rest = c.rest.dropWhile isBlank := rfl

/-- Where something other than a blank comes next, the blanks before it are skipped. -/
theorem skipBlank_append {b : List Char} (hb : Blank b) {d : Char} (hd : isBlank d = false)
    (rest : List Char) (p : Position) :
    ∃ q, skipBlank ⟨b ++ d :: rest, p⟩ = ⟨d :: rest, q⟩ := by
  refine ⟨_, congrArg (Cursor.mk · _) ?_⟩
  show (b ++ d :: rest).dropWhile isBlank = d :: rest
  rw [List.dropWhile_append_of_pos hb, List.dropWhile_cons_of_neg (by simp [hd])]

theorem skipBlank_blank {b : List Char} (hb : Blank b) (p : Position) :
    ∃ q, skipBlank ⟨b, p⟩ = ⟨[], q⟩ := by
  refine ⟨_, congrArg (Cursor.mk · _) ?_⟩
  exact List.dropWhile_eq_nil_iff.mpr hb

theorem exists_blank (c : Cursor) : ∃ b, Blank b ∧ c.rest = b ++ c.skipBlank.rest := by
  refine ⟨c.rest.takeWhile isBlank, fun d hd => List.mem_takeWhile_imp hd, ?_⟩
  rw [rest_skipBlank, List.takeWhile_append_dropWhile]

theorem rest_advance {c : Cursor} {d : Char} {ds : List Char} (h : c.rest = d :: ds) :
    c.advance.rest = ds := by
  obtain ⟨rest, position⟩ := c
  obtain rfl : rest = d :: ds := h
  rfl

end Cursor

/-! ## Ends of numbers -/

/-- What may stand behind a number. -/
def Ends (rest : List Char) : Prop :=
  ∀ d, rest.head? = some d → d.isDigit = false ∧ d ≠ '.' ∧ d ≠ 'e' ∧ d ≠ 'E'

theorem Ends.cons {d : Char} (h : d.isDigit = false ∧ d ≠ '.' ∧ d ≠ 'e' ∧ d ≠ 'E')
    (rest : List Char) : Ends (d :: rest) := by
  rintro e he
  rw [List.head?_cons, Option.some.injEq] at he
  exact he ▸ h

theorem Ends.nil : Ends [] := fun _ h => nomatch h

theorem Ends.append {b rest : List Char} (hb : Blank b) (h : Ends rest) : Ends (b ++ rest) := by
  cases b with
  | nil => exact h
  | cons d b =>
      refine Ends.cons ?_ (b ++ rest)
      have hd : Cursor.isBlank d = true := hb d List.mem_cons_self
      simp only [Cursor.isBlank, Bool.or_eq_true, beq_iff_eq] at hd
      rcases hd with ((rfl | rfl) | rfl) | rfl <;> decide

end Json
end GrammarRecords
