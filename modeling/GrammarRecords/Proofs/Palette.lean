/-
Colored text without its colors.

The escape sequences of the palette are deleted by one scan from the left.  All
of them start with the escape character and none is the beginning of another.
So no sequence starts within a text that has no escape character, and a
sequence that starts is the one that was put there, whatever stands behind it.
Hence the scan may be made piece by piece: `Fades s t` says that it makes `t`
out of `s` in front of any text, and is kept by joining texts and by painting.
-/
import GrammarRecords.Palette
import Mathlib.Data.List.Basic
import Mathlib.Data.List.Forall2

namespace GrammarRecords

/-! ## Deleting marks -/

namespace Text

/--
Deletes the marks that occur in a text, from left to right.  The number says how
many characters of a mark are still to come.
-/
def deleteFrom (marks : List (List Char)) : Nat → List Char → List Char
  | _, [] => []
  | within + 1, _ :: cs => deleteFrom marks within cs
  | 0, c :: cs =>
      match marks.find? fun mark => !mark.isEmpty && mark.isPrefixOf (c :: cs) with
      | some mark => deleteFrom marks (mark.length - 1) cs
      | none => c :: deleteFrom marks 0 cs

variable {marks : List (List Char)}

theorem deleteFrom_length_append (cs rest : List Char) :
    deleteFrom marks cs.length (cs ++ rest) = deleteFrom marks 0 rest := by
  induction cs with
  | nil => rfl
  | cons c cs ih => exact ih

theorem deleteFrom_cons_of_ne {start c : Char}
    (hstart : ∀ mark ∈ marks, mark.head? = some start) (hc : c ≠ start) (cs : List Char) :
    deleteFrom marks 0 (c :: cs) = c :: deleteFrom marks 0 cs := by
  have hnone : (marks.find? fun mark => !mark.isEmpty && mark.isPrefixOf (c :: cs)) = none := by
    rw [List.find?_eq_none]
    intro mark hmark hstarts
    rw [Bool.and_eq_true, List.isPrefixOf_iff_prefix] at hstarts
    obtain ⟨rest, hrest⟩ := hstarts.2
    have hhead := hstart mark hmark
    cases mark with
    | nil => exact nomatch hhead
    | cons d ds =>
        have hd : d = start := Option.some.inj hhead
        exact hc ((List.cons.inj hrest).1.symm.trans hd)
  rw [deleteFrom, hnone]

/-- No mark is the beginning of another one, so a mark in front is the mark that is found. -/
theorem deleteFrom_mark_append {mark : List Char}
    (hfree : ∀ a ∈ marks, ∀ b ∈ marks, a <+: b → a = b) (hmem : mark ∈ marks)
    (hne : mark ≠ []) (rest : List Char) :
    deleteFrom marks 0 (mark ++ rest) = deleteFrom marks 0 rest := by
  obtain ⟨c, cs, rfl⟩ := List.exists_cons_of_ne_nil hne
  have hself : (c :: cs) <+: (c :: cs) ++ rest := List.prefix_append _ rest
  have hfound : (marks.find? fun mark => !mark.isEmpty &&
      mark.isPrefixOf ((c :: cs) ++ rest)) = some (c :: cs) := by
    obtain ⟨found, hfind⟩ : ∃ found, (marks.find? fun mark => !mark.isEmpty &&
        mark.isPrefixOf ((c :: cs) ++ rest)) = some found := by
      rw [← Option.isSome_iff_exists, List.find?_isSome]
      refine ⟨c :: cs, hmem, ?_⟩
      rw [Bool.and_eq_true, List.isPrefixOf_iff_prefix]
      exact ⟨rfl, hself⟩
    have hprefix := List.find?_some hfind
    rw [Bool.and_eq_true, List.isPrefixOf_iff_prefix] at hprefix
    have hfoundMem := List.mem_of_find?_eq_some hfind
    have hsame : found = c :: cs := by
      rcases List.prefix_or_prefix_of_prefix hprefix.2 hself with hle | hge
      · exact hfree found hfoundMem _ hmem hle
      · exact (hfree _ hmem found hfoundMem hge).symm
    rw [hfind, hsame]
  rw [List.cons_append] at hfound ⊢
  rw [deleteFrom, hfound]
  exact deleteFrom_length_append cs rest

end Text

/-! ## Colors -/

namespace Palette

open Text

def marks (p : Palette) : List (List Char) :=
  [p.keyword, p.name, p.dim, p.reset].map String.toList

/-- The text without the escape sequences of the palette. -/
def delete (p : Palette) (text : String) : String :=
  String.ofList (deleteFrom p.marks 0 text.toList)

/-- A text without the character that every escape sequence starts with. -/
def Colorless (text : String) : Prop :=
  '\x1b' ∉ text.toList

instance (text : String) : Decidable (Colorless text) :=
  inferInstanceAs (Decidable (_ ∉ _))

theorem head_of_mem_marks_on : ∀ mark ∈ on.marks, mark.head? = some '\x1b' := by
  decide

theorem marks_on_prefix_free : ∀ a ∈ on.marks, ∀ b ∈ on.marks, a <+: b → a = b := by
  decide

/-- Without its colors the first text is the second, whatever text follows. -/
def Fades (s t : String) : Prop :=
  ∀ rest, deleteFrom on.marks 0 (s.toList ++ rest) = t.toList ++ deleteFrom on.marks 0 rest

theorem Fades.delete_eq {s t : String} (h : Fades s t) : on.delete s = t := by
  have hall := h []
  rw [List.append_nil, deleteFrom, List.append_nil] at hall
  rw [delete, hall, String.ofList_toList]

theorem Fades.of_colorless {s : String} (h : Colorless s) : Fades s s := by
  intro rest
  have hcs : ∀ cs : List Char, '\x1b' ∉ cs →
      deleteFrom on.marks 0 (cs ++ rest) = cs ++ deleteFrom on.marks 0 rest := by
    intro cs hcs
    induction cs with
    | nil => rfl
    | cons c cs ih =>
        rw [List.mem_cons, not_or] at hcs
        rw [List.cons_append, deleteFrom_cons_of_ne head_of_mem_marks_on (Ne.symm hcs.1), ih hcs.2,
          List.cons_append]
  exact hcs s.toList h

theorem Fades.of_mark {mark : String} (h : mark.toList ∈ on.marks) : Fades mark "" := by
  intro rest
  have hne : mark.toList ≠ [] := by
    intro hnil
    exact nomatch hnil ▸ head_of_mem_marks_on _ h
  exact deleteFrom_mark_append marks_on_prefix_free h hne rest

theorem Fades.append {s t s' t' : String} (h : Fades s t) (h' : Fades s' t') :
    Fades (s ++ s') (t ++ t') := by
  intro rest
  rw [String.toList_append, String.toList_append, List.append_assoc, h, h', List.append_assoc]

theorem Fades.append_text {s t x : String} (h : Fades s t) (hx : Colorless x) :
    Fades (s ++ x) (t ++ x) :=
  h.append (.of_colorless hx)

theorem Fades.join {ss ts : List String} (h : List.Forall₂ Fades ss ts) :
    Fades (String.join ss) (String.join ts) := by
  induction h with
  | nil => exact .of_colorless (by decide)
  | cons hst _ ih =>
      rw [String.join_cons, String.join_cons]
      exact hst.append ih

theorem Fades.intercalate {separator : String} (hseparator : Colorless separator)
    {ss ts : List String} (h : List.Forall₂ Fades ss ts) :
    Fades (separator.intercalate ss) (separator.intercalate ts) := by
  induction h with
  | nil =>
      show Fades "" ""
      exact .of_colorless (by decide)
  | cons hst hrest ih =>
      cases hrest with
      | nil => exact hst
      | cons hst' hrest' =>
          rw [String.intercalate_cons_cons, String.intercalate_cons_cons]
          exact (hst.append_text hseparator).append ih

/-! ## Painting -/

theorem Fades.painted {mark s t : String} (hmark : mark.toList ∈ on.marks) (h : Fades s t) :
    Fades (mark ++ s ++ on.reset) (off.reset ++ t ++ off.reset) :=
  ((Fades.of_mark hmark).append h).append (.of_mark (by decide))

variable {s t : String} (h : Fades s t)

include h

theorem Fades.paintKeyword :
    Fades ((ofEnabled true).paintKeyword s) ((ofEnabled false).paintKeyword t) :=
  .painted (by decide) h

theorem Fades.paintName :
    Fades ((ofEnabled true).paintName s) ((ofEnabled false).paintName t) :=
  .painted (by decide) h

theorem Fades.paintDim :
    Fades ((ofEnabled true).paintDim s) ((ofEnabled false).paintDim t) :=
  .painted (by decide) h

end Palette
end GrammarRecords
