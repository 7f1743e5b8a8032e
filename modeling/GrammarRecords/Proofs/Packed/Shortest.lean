/-
What the reader takes, against what the writer writes.

A reader accepts more than the writer writes: longer spellings of a number, the
name of a rule once more, bytes behind the grammar.  Each of these takes room
that the writer does not need, so the bytes that a field was read from are the
ones that the writer writes for it, or they are more (`Covers`).  This passes
from the parts of a field to the whole.  A repeated rule is left out when the
table is built, and with it at least one byte.  `pack_shortest` says that the
packed form of a grammar is the one shortest spelling of it.
-/
import GrammarRecords.Proofs.Packed.Limits
import Mathlib.Data.List.Induction

namespace GrammarRecords
namespace Packed

/-- Bytes that are as `written`, or more than these. -/
def Covers (used written : Bytes) : Prop :=
  used = written ∨ written.length < used.length

namespace Covers

theorem refl (bs : Bytes) : Covers bs bs := Or.inl rfl

theorem length_le {used written : Bytes} (h : Covers used written) :
    written.length ≤ used.length := by
  rcases h with rfl | hlt
  · exact Nat.le_refl _
  · exact Nat.le_of_lt hlt

theorem trans {as bs cs : Bytes} (h : Covers as bs) (h' : Covers bs cs) : Covers as cs := by
  have hle := h'.length_le
  rcases h with rfl | hlt
  · exact h'
  · exact Or.inr (Nat.lt_of_le_of_lt hle hlt)

theorem append {used written used' written' : Bytes} (h : Covers used written)
    (h' : Covers used' written') : Covers (used ++ used') (written ++ written') := by
  have hle := h.length_le
  have hle' := h'.length_le
  unfold Covers
  rw [List.length_append, List.length_append]
  rcases h with rfl | hlt
  · rcases h' with rfl | hlt'
    · exact Or.inl rfl
    · exact Or.inr (by omega)
  · exact Or.inr (by omega)

end Covers

/-- The reader takes from the front of the bytes what is written for the value, or more. -/
def TakesEnough {α : Type} (write : α → Bytes) (read : Bytes → Except Fault (α × Bytes)) : Prop :=
  ∀ bs, Yields (read bs) fun p => ∃ used, bs = used ++ p.2 ∧ Covers used (write p.1)

/-! ## Numbers -/

theorem length_number_pos (n : Nat) : 0 < (number n).length := by
  by_cases h : n < 128
  · rw [number_small h]
    exact Nat.one_pos
  · rw [number_large h]
    exact Nat.succ_pos _

theorem length_number_le {m n : Nat} (h : m ≤ n) : (number m).length ≤ (number n).length := by
  induction n using Nat.strongRecOn generalizing m with
  | ind n ih =>
      by_cases hm : m < 128
      · rw [number_small hm]
        exact length_number_pos n
      · have hn : ¬ n < 128 := by omega
        have hdiv := ih (n / 128) (by omega) (Nat.div_le_div_right h : m / 128 ≤ n / 128)
        rw [number_large hm, number_large hn, List.length_cons, List.length_cons]
        omega

theorem takesEnough_number (width top : Nat) : TakesEnough number (readNumber width top) := by
  intro bs
  induction width generalizing bs with
  | zero => exact .error _
  | succ width ih =>
      cases bs with
      | nil => exact .error _
      | cons b rest =>
          have hbyte : b.toNat < 256 := b.toNat_lt
          rw [readNumber]
          split_ifs with hlast hbig
          · exact .error _
          · refine .ok ⟨[b], rfl, Or.inl ?_⟩
            rw [number_small hlast, UInt8.ofNat_toNat]
          · refine (ih rest).bind ?_
            rintro ⟨n, rest'⟩ ⟨used, hrest, hused⟩
            simp only at hrest hused ⊢
            refine .ok ⟨b :: used, by rw [hrest, List.cons_append], ?_⟩
            by_cases hn : n = 0
            · -- a group of zeros at the end is what the writer leaves out
              subst hn
              have hlength := hused.length_le
              rw [number_small (by decide : 0 < 128), List.length_singleton] at hlength
              refine Or.inr ?_
              rw [number_small (by omega), List.length_singleton, List.length_cons]
              omega
            · have hlow : (b.toNat - 128 + 128 * n) % 128 + 128 = b.toNat := by omega
              have hhigh : (b.toNat - 128 + 128 * n) / 128 = n := by omega
              rw [number_large (by omega), hlow, hhigh, UInt8.ofNat_toNat]
              exact (Covers.refl [b]).append hused

/-! ## Texts -/

theorem textBytes_of_textOfBytes? {bs : Bytes} {s : String} (h : textOfBytes? bs = some s) :
    textBytes s = bs := by
  unfold textOfBytes? String.fromUTF8? at h
  split at h
  · rw [← Option.some.inj h]
    rfl
  · cases h

theorem takesEnough_text : TakesEnough text readText := by
  intro bs
  refine (takesEnough_number 10 1 bs).bind fun ⟨n, rest⟩ ⟨used, hbs, hused⟩ => ?_
  simp only at hbs hused ⊢
  split_ifs with hshort
  · exact .error _
  · split
    · rename_i s hs
      have hbytes := textBytes_of_textOfBytes? hs
      have hlength : (textBytes s).length = n := by
        rw [hbytes, List.length_take]
        omega
      refine .ok ⟨used ++ rest.take n, ?_, ?_⟩
      · rw [List.append_assoc, List.take_append_drop, hbs]
      · rw [text, hlength, hbytes]
        exact hused.append (Covers.refl _)
    · exact .error _

/-! ## Options and lists -/

theorem items_append {α : Type} (write : α → Bytes) (as bs : List α) :
    items write (as ++ bs) = items write as ++ items write bs := by
  induction as with
  | nil => rfl
  | cons a as ih => rw [List.cons_append, items, items, ih, List.append_assoc]

section

variable {α : Type} {write : α → Bytes} {read : Bytes → Except Fault (α × Bytes)}
  (hread : TakesEnough write read)

include hread

theorem takesEnough_option : TakesEnough (option write) (readOption read) := by
  intro bs
  cases bs with
  | nil => exact .error _
  | cons b rest =>
      rw [readOption]
      split_ifs with hnone hsome
      · rw [hnone]
        exact .ok ⟨[0], rfl, Covers.refl _⟩
      · refine (hread rest).bind ?_
        rintro ⟨a, rest'⟩ ⟨used, hrest, hused⟩
        simp only at hrest hused ⊢
        refine .ok ⟨1 :: used, by rw [hsome, hrest, List.cons_append], ?_⟩
        exact (Covers.refl [1]).append hused
      · exact .error _

theorem takesEnough_items (n : Nat) (bs : Bytes) :
    Yields (readItems read n bs) fun p => p.1.length = n ∧
      ∃ used, bs = used ++ p.2 ∧ Covers used (items write p.1) := by
  induction n generalizing bs with
  | zero => exact .ok ⟨rfl, [], rfl, Covers.refl _⟩
  | succ n ih =>
      refine (hread bs).bind fun ⟨a, rest⟩ ⟨used, hbs, hused⟩ => ?_
      refine (ih rest).bind fun ⟨as, rest'⟩ ⟨hcount, used', hrest, hused'⟩ => .ok ?_
      simp only at hbs hused hcount hrest hused' ⊢
      refine ⟨by rw [List.length_cons, hcount], used ++ used', ?_, hused.append hused'⟩
      rw [hbs, hrest, List.append_assoc]

theorem takesEnough_list : TakesEnough (list write) (readList read) := by
  intro bs
  refine (takesEnough_number 10 1 bs).bind fun ⟨n, rest⟩ ⟨used, hbs, hused⟩ => ?_
  refine (takesEnough_items hread n rest).mono fun ⟨as, rest'⟩ ⟨hcount, used', hrest, hused'⟩ => ?_
  simp only at hbs hused hcount hrest hused' ⊢
  refine ⟨used ++ used', by rw [hbs, hrest, List.append_assoc], ?_⟩
  rw [list, hcount]
  exact hused.append hused'

end

/-! ## Tables -/

section

variable {κ υ : Type} [DecidableEq κ] {write : κ × υ → Bytes}

theorem length_items_put {p : κ × υ} {ps : List (κ × υ)} (hpos : ∀ p, 0 < (write p).length)
    (h : p.1 ∈ ps.map Prod.fst) :
    (put p.1 p.2 ps).length = ps.length ∧
      (items write (put p.1 p.2 ps)).length < (items write ps).length + (write p).length := by
  obtain ⟨k, v⟩ := p
  induction ps with
  | nil => exact absurd h List.not_mem_nil
  | cons q qs ih =>
      rw [put]
      by_cases hq : q.1 = k
      · have hout := hpos q
        rw [if_pos hq]
        simp only [items, List.length_append, List.length_cons, true_and]
        omega
      · have hrest : k ∈ qs.map Prod.fst := by
          rw [List.map_cons, List.mem_cons] at h
          exact h.resolve_left fun e => hq e.symm
        obtain ⟨hsize, hlength⟩ := ih hrest
        rw [if_neg hq]
        simp only [items, List.length_append, List.length_cons, hsize, true_and] at hlength ⊢
        omega

/-- A table is built from its own entries, or from more and longer pairs. -/
theorem entries_ofList_eq_or_lt (hpos : ∀ p, 0 < (write p).length) (ps : List (κ × υ)) :
    (Table.ofList ps).entries = ps ∨
      ((Table.ofList ps).entries.length < ps.length ∧
        (items write (Table.ofList ps).entries).length < (items write ps).length) := by
  induction ps using List.reverseRecOn with
  | nil => exact Or.inl rfl
  | append_singleton ps p ih =>
      have hinsert :
          (Table.ofList (ps ++ [p])).entries = put p.1 p.2 (Table.ofList ps).entries :=
        congrArg Table.entries (Table.ofList_concat ps p)
      have hlast : (items write [p]).length = (write p).length := by
        rw [items, items, List.append_nil]
      rw [hinsert, items_append, List.length_append, List.length_append, hlast,
        List.length_singleton]
      by_cases hmem : p.1 ∈ (Table.ofList ps).entries.map Prod.fst
      · obtain ⟨hsize, hlength⟩ := length_items_put hpos hmem
        refine Or.inr ?_
        rcases ih with heq | ⟨hfewer, hshorter⟩
        · rw [heq] at hsize hlength ⊢
          omega
        · omega
      · rw [put_of_not_mem p.2 hmem]
        rcases ih with heq | ⟨hfewer, hshorter⟩
        · exact Or.inl (by rw [heq])
        · refine Or.inr ?_
          rw [items_append, List.length_append, List.length_append, hlast, List.length_singleton]
          omega

theorem covers_list_ofList (hpos : ∀ p, 0 < (write p).length) (ps : List (κ × υ)) :
    Covers (list write ps) (list write (Table.ofList ps).entries) := by
  rcases entries_ofList_eq_or_lt hpos ps with heq | ⟨hfewer, hshorter⟩
  · rw [heq]
    exact Covers.refl _
  · have hnumber := length_number_le (Nat.le_of_lt hfewer)
    refine Or.inr ?_
    rw [list, list, List.length_append, List.length_append]
    omega

end

end Packed

/-! ## Grammars -/

open Packed

theorem NodeKind.tag_of_ofTag? {n : Nat} {k : NodeKind} (h : ofTag? n = some k) : k.tag = n := by
  have hindex : all[k.tag]? = all[n]? := (ofTag?_tag k).trans h.symm
  have hlength : k.tag < all.length := by cases k <;> decide
  have hnodup : all.Nodup := by decide
  exact (List.getElem?_inj hlength hnodup).mp hindex

namespace Node

theorem takesEnough_kind : TakesEnough (fun k : NodeKind => number k.tag) readKind := by
  intro bs
  refine (takesEnough_number 5 15 bs).bind fun ⟨n, rest⟩ ⟨used, hbs, hused⟩ => ?_
  simp only at hbs hused ⊢
  split
  · rename_i k hk
    refine .ok ⟨used, hbs, ?_⟩
    rw [NodeKind.tag_of_ofTag? hk]
    exact hused
  · exact .error _

theorem packedAll_eq_items (ns : List Node) : packedAll ns = items packed ns := by
  induction ns with
  | nil => rfl
  | cons n rest ih => rw [packedAll, items, ih]

theorem takesEnough_packed (depth : Nat) : TakesEnough packed (readPacked depth) := by
  intro bs
  induction depth generalizing bs with
  | zero => exact .error _
  | succ depth ih =>
      refine (takesEnough_kind bs).bind fun ⟨kind, rest⟩ ⟨used, hbs, hused⟩ => ?_
      refine (takesEnough_option takesEnough_text rest).bind
        fun ⟨text, rest'⟩ ⟨used', hrest, hused'⟩ => ?_
      refine (takesEnough_list ih rest').bind
        fun ⟨children, rest''⟩ ⟨used'', hrest', hused''⟩ => .ok ?_
      simp only at hbs hused hrest hused' hrest' hused'' ⊢
      refine ⟨used ++ used' ++ used'', ?_, ?_⟩
      · rw [hbs, hrest, hrest', List.append_assoc, List.append_assoc]
      · rw [packed, packedAll_eq_items]
        exact (hused.append hused').append hused''

end Node

theorem RuleBody.takesEnough_body : TakesEnough RuleBody.packed RuleBody.readPacked := by
  intro bs
  have hnode : TakesEnough Node.packed fun bs => Node.readPacked (bs.length + 1) bs :=
    fun bs => Node.takesEnough_packed (bs.length + 1) bs
  refine (takesEnough_list (takesEnough_option hnode) bs).bind fun p hp => .ok ?_
  exact hp

namespace Grammar

theorem takesEnough_rule : TakesEnough packedRule readRule := by
  intro bs
  refine (takesEnough_text bs).bind fun ⟨name, rest⟩ ⟨used, hbs, hused⟩ => ?_
  refine (RuleBody.takesEnough_body rest).bind
    fun ⟨body, rest'⟩ ⟨used', hrest, hused'⟩ => .ok ?_
  simp only at hbs hused hrest hused' ⊢
  refine ⟨used ++ used', by rw [hbs, hrest, List.append_assoc], hused.append hused'⟩

theorem length_packedRule_pos (rule : String × RuleBody) : 0 < (packedRule rule).length := by
  have hnumber := length_number_pos (textBytes rule.1).length
  rw [packedRule, text, List.length_append, List.length_append]
  omega

theorem takesEnough_payload : TakesEnough payload readPayload := by
  intro bs
  refine (takesEnough_text bs).bind fun ⟨name, rest⟩ ⟨used, hbs, hused⟩ => ?_
  refine (takesEnough_list takesEnough_rule rest).bind
    fun ⟨rules, rest'⟩ ⟨used', hrest, hused'⟩ => .ok ?_
  simp only at hbs hused hrest hused' ⊢
  refine ⟨used ++ used', by rw [hbs, hrest, List.append_assoc], ?_⟩
  exact hused.append (hused'.trans (covers_list_ofList length_packedRule_pos rules))

/--
Whatever bytes a grammar was unpacked from, it can be packed, is unpacked again as
it is and has distinct rule names.  No other bytes that unpack to the grammar are as
few as those that it is packed in.
-/
theorem pack_shortest {bs : Bytes} {g : Grammar} (h : unpack bs = .ok g) :
    unpack g.pack = .ok g ∧ g.rules.keys.Nodup ∧
      g.pack.length ≤ bs.length ∧ (g.pack.length = bs.length → g.pack = bs) := by
  obtain ⟨front, rest, hbs, hread⟩ := exists_payload_of_unpack h
  obtain ⟨used, hfront, hused⟩ := takesEnough_payload front _ hread
  simp only at hfront hused
  have hcovers : Covers bs g.pack := by
    have htrailing : Covers front g.payload := by
      have happend := hused.append (Covers.refl rest)
      rw [hfront]
      refine happend.trans ?_
      cases rest with
      | nil => exact Or.inl (List.append_nil _)
      | cons b rest =>
          refine Or.inr ?_
          rw [List.length_append, List.length_cons]
          omega
    rw [hbs]
    exact (Covers.refl mark).append ((Covers.refl [formatVersion]).append htrailing)
  have hagain : readPayload g.payload = .ok (g, []) := by
    have hback := readsBack_payload (fits_of_unpack h) []
    rwa [List.append_nil] at hback
  refine ⟨unpack_eq_of_readPayload hagain, g.rules.nodup, hcovers.length_le, fun hlength => ?_⟩
  rcases hcovers with heq | hlt
  · exact heq.symm
  · omega

/-- A length in two bytes, a rule that is defined twice, and a byte behind the grammar. -/
def redundantBytes : Bytes :=
  mark ++ formatVersion :: [0x81, 0x00, 0x67, 0x02, 0x01, 0x61, 0x00, 0x01, 0x61, 0x01, 0x00, 0x07]

def oneRule : Grammar := ⟨"g", .ofList [("a", ⟨[none]⟩)]⟩

theorem pack_shortest_redundantBytes :
    unpack redundantBytes = .ok oneRule ∧ redundantBytes.length = 17 ∧
      oneRule.pack.length = 12 ∧ unpack oneRule.pack = .ok oneRule := by
  have hunpack : unpack redundantBytes = .ok oneRule := by decide +kernel
  exact ⟨hunpack, rfl, by decide +kernel, (pack_shortest hunpack).1⟩

end Grammar
end GrammarRecords
