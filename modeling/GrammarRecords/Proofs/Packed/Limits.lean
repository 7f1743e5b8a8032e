/-
Lengths in what is unpacked.

A length is read from a field of limited width.  Whatever bytes are unpacked,
canonical or not, the grammar that comes out has lengths that can be written
again: `fits_of_unpack`.
-/
import GrammarRecords.Proofs.Outcome
import GrammarRecords.Proofs.Packed.RoundTrip

namespace GrammarRecords
namespace Packed

/-! ## Fields -/

theorem readNumber_lt (width top : Nat) (bs : Bytes) :
    Yields (readNumber (width + 1) top bs) fun p => p.1 < (top + 1) * 128 ^ width := by
  induction width generalizing bs with
  | zero =>
      cases bs with
      | nil => exact .error _
      | cons b rest =>
          rw [readNumber]
          split_ifs with hlast hbig
          · exact .error _
          · refine .ok ?_
            have hle : b.toNat ≤ top := by omega
            simpa using Nat.lt_succ_of_le hle
          · exact .error _
  | succ width ih =>
      cases bs with
      | nil => exact .error _
      | cons b rest =>
          have hpos : 0 < (top + 1) * 128 ^ width :=
            Nat.mul_pos (Nat.succ_pos top) (Nat.pow_pos (by decide))
          rw [readNumber, Nat.pow_succ, ← Nat.mul_assoc]
          split_ifs with hlast hbig
          · exact .error _
          · exact .ok (show b.toNat < _ by omega)
          · refine (ih rest).bind fun p hp => .ok ?_
            have hbyte : b.toNat < 256 := b.toNat_lt
            show b.toNat - 128 + 128 * p.1 < _
            omega

theorem readCount_lt (bs : Bytes) : Yields (readCount bs) fun p => p.1 < countLimit :=
  readNumber_lt 9 1 bs

theorem utf8ByteSize_of_textOfBytes? {bs : Bytes} {s : String} (h : textOfBytes? bs = some s) :
    s.utf8ByteSize = bs.length := by
  unfold textOfBytes? String.fromUTF8? at h
  split at h
  · rw [← Option.some.inj h]
    rfl
  · exact nomatch h

theorem readText_lt (bs : Bytes) : Yields (readText bs) fun p => p.1.utf8ByteSize < countLimit := by
  refine (readCount_lt bs).bind fun ⟨n, rest⟩ hn => ?_
  simp only
  split_ifs
  · exact .error _
  · split
    · rename_i s hs
      refine .ok ?_
      have hsize := utf8ByteSize_of_textOfBytes? hs
      rw [List.length_take] at hsize
      show s.utf8ByteSize < countLimit
      omega
    · exact .error _

section

variable {α : Type} {P : α → Prop} {read : Bytes → Except Fault (α × Bytes)}
  (hread : ∀ bs, Yields (read bs) fun p => P p.1)

include hread

theorem readOption_yields (bs : Bytes) :
    Yields (readOption read bs) fun p => ∀ a, p.1 = some a → P a := by
  cases bs with
  | nil => exact .error _
  | cons b rest =>
      rw [readOption]
      split_ifs
      · exact .ok fun a ha => nomatch ha
      · refine (hread rest).bind fun p hp => .ok ?_
        intro a ha
        exact Option.some.inj ha ▸ hp
      · exact .error _

theorem readItems_yields (n : Nat) (bs : Bytes) :
    Yields (readItems read n bs) fun p => p.1.length = n ∧ ∀ a ∈ p.1, P a := by
  induction n generalizing bs with
  | zero => exact .ok ⟨rfl, List.forall_mem_nil P⟩
  | succ n ih =>
      refine (hread bs).bind fun p hp => (ih p.2).bind fun q hq => .ok ?_
      exact ⟨congrArg (· + 1) hq.1, List.forall_mem_cons.mpr ⟨hp, hq.2⟩⟩

theorem readList_yields (bs : Bytes) :
    Yields (readList read bs) fun p => p.1.length < countLimit ∧ ∀ a ∈ p.1, P a := by
  refine (readCount_lt bs).bind fun p hp => (readItems_yields hread p.1 p.2).mono ?_
  exact fun q hq => ⟨hq.1.symm ▸ hp, hq.2⟩

end

end Packed

/-! ## Grammars -/

open Packed

theorem Node.allFit_iff {ns : List Node} : Node.AllFit ns ↔ ∀ n ∈ ns, n.Fits := by
  induction ns with
  | nil => exact iff_of_true trivial (List.forall_mem_nil _)
  | cons n rest ih => rw [Node.AllFit, ih, List.forall_mem_cons]

theorem Node.fits_readPacked (depth : Nat) (bs : Bytes) :
    Yields (Node.readPacked depth bs) fun p => p.1.Fits := by
  induction depth generalizing bs with
  | zero => exact .error _
  | succ depth ih =>
      refine (Yields.any (Node.readKind bs)).bind fun kind _ => ?_
      have hoption := readOption_yields (P := fun s : String => s.utf8ByteSize < countLimit) readText_lt
      refine (hoption kind.2).bind fun text htext => ?_
      refine (readList_yields ih text.2).bind fun children hchildren => .ok ?_
      exact ⟨htext, hchildren.1, Node.allFit_iff.mpr hchildren.2⟩

theorem RuleBody.fits_readPacked (bs : Bytes) :
    Yields (RuleBody.readPacked bs) fun p => p.1.Fits := by
  have hoption := readOption_yields (P := Node.Fits) fun bs =>
    Node.fits_readPacked (bs.length + 1) bs
  have hlist := readList_yields (P := fun o : Option Node => ∀ n, o = some n → n.Fits) hoption
  refine (hlist bs).bind fun p hp => .ok ?_
  exact ⟨hp.1, fun n hn => hp.2 _ hn n rfl⟩

namespace Grammar

theorem fits_readRule (bs : Bytes) :
    Yields (readRule bs) fun p => p.1.1.utf8ByteSize < countLimit ∧ p.1.2.Fits := by
  refine (readText_lt bs).bind fun name hname => ?_
  refine (RuleBody.fits_readPacked name.2).bind fun body hbody => .ok ?_
  exact ⟨hname, hbody⟩

theorem fits_readPayload (bs : Bytes) : Yields (readPayload bs) fun p => p.1.Fits := by
  refine (readText_lt bs).bind fun name hname => ?_
  refine (readList_yields (P := fun rule => rule.1.utf8ByteSize < countLimit ∧ rule.2.Fits)
    fits_readRule name.2).bind fun rules hrules => .ok ?_
  have hmem := fun rule (h : rule ∈ (Table.ofList rules.1).entries) =>
    hrules.2 rule (Table.mem_of_mem_entries_ofList h)
  exact ⟨hname, Nat.lt_of_le_of_lt (Table.size_ofList_le rules.1) hrules.1,
    fun rule h => (hmem rule h).1, fun rule h => (hmem rule h).2⟩

theorem unpack_eq_of_readPayload {bs rest : Bytes} {g : Grammar}
    (h : readPayload bs = .ok (g, rest)) : unpack (mark ++ formatVersion :: bs) = .ok g := by
  have hmark : (mark ++ formatVersion :: bs).take mark.length = mark := rfl
  have hrest : (mark ++ formatVersion :: bs).drop mark.length = formatVersion :: bs := rfl
  rw [unpack, if_pos hmark, hrest]
  simp only
  rw [if_pos trivial, h]

/-- What was unpacked is the mark, the version byte, a payload and any bytes behind it. -/
theorem exists_payload_of_unpack {bs : Bytes} {g : Grammar} (h : unpack bs = .ok g) :
    ∃ front rest, bs = mark ++ formatVersion :: front ∧ readPayload front = .ok (g, rest) := by
  unfold unpack at h
  split at h
  · rename_i hmark
    split at h
    · exact nomatch h
    · rename_i version front hdrop
      split at h
      · rename_i hversion
        split at h
        · rename_i g' rest hpayload
          refine ⟨front, rest, ?_, by rw [hpayload, Except.ok.inj h]⟩
          rw [← List.take_append_drop mark.length bs, hmark, hdrop, hversion]
        · exact nomatch h
      · exact nomatch h
  · exact nomatch h

theorem fits_of_unpack {bs : Bytes} {g : Grammar} (h : unpack bs = .ok g) : g.Fits := by
  obtain ⟨front, rest, -, hread⟩ := exists_payload_of_unpack h
  exact fits_readPayload front _ hread

end Grammar
end GrammarRecords
