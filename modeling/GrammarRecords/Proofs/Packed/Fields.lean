/-
Reading back what was written, field by field.

A reader takes the bytes that are left and gives back those behind its field.
`ReadsBack write read a` says that on what is written for `a`, followed by any
bytes at all, the reader gives `a` and exactly these bytes.  The bytes that
follow are arbitrary, so the property of the parts of a field gives that of the
whole by one step for each part.
-/
import GrammarRecords.Packed.Field
import Mathlib.Algebra.Order.Ring.Nat

namespace GrammarRecords
namespace Packed

def ReadsBack {α : Type} (write : α → Bytes) (read : Bytes → Except Fault (α × Bytes))
    (a : α) : Prop :=
  ∀ rest, read (write a ++ rest) = .ok (a, rest)

/-- Counts are below this, and tags below the next. -/
def countLimit : Nat := 2 ^ 64

def tagLimit : Nat := 2 ^ 32

theorem ok_bind {α β : Type} (a : α) (f : α → Except Fault β) :
    (Except.ok a >>= f) = f a := rfl

/-! ## Numbers -/

theorem number_small {n : Nat} (h : n < 128) : number n = [UInt8.ofNat n] := by
  rw [number, if_pos h]

theorem number_large {n : Nat} (h : ¬ n < 128) :
    number n = UInt8.ofNat (n % 128 + 128) :: number (n / 128) := by
  rw [number, if_neg h]

theorem toNat_ofNat_small {n : Nat} (h : n < 256) : (UInt8.ofNat n).toNat = n := by
  rw [UInt8.toNat_ofNat']
  exact Nat.mod_eq_of_lt h

/-- What fits the width of the field is read back from its groups of seven bits. -/
theorem readNumber_number {width top n : Nat} (htop : top < 128)
    (h : n < (top + 1) * 128 ^ width) (rest : Bytes) :
    readNumber (width + 1) top (number n ++ rest) = .ok (n, rest) := by
  induction width generalizing n with
  | zero =>
      have hle : n < top + 1 := by simpa using h
      rw [number_small (by omega), List.singleton_append, readNumber,
        toNat_ofNat_small (by omega), if_pos (by omega), if_neg (by omega)]
  | succ width ih =>
      by_cases hn : n < 128
      · rw [number_small hn, List.singleton_append, readNumber,
          toNat_ofNat_small (by omega), if_pos hn, if_neg (by omega)]
      · have hdiv : n / 128 < (top + 1) * 128 ^ width := by
          rw [Nat.pow_succ, ← Nat.mul_assoc] at h
          exact Nat.div_lt_of_lt_mul (by rw [Nat.mul_comm]; exact h)
        rw [number_large hn, List.cons_append, readNumber,
          toNat_ofNat_small (by omega), if_neg (by omega), ih hdiv, ok_bind]
        show Except.ok (n % 128 + 128 - 128 + 128 * (n / 128), rest) = _
        have hsum : n % 128 + 128 - 128 + 128 * (n / 128) = n := by omega
        rw [hsum]

theorem readsBack_count {n : Nat} (h : n < countLimit) : ReadsBack number readCount n :=
  readNumber_number (by decide) h

theorem readsBack_tag {n : Nat} (h : n < tagLimit) : ReadsBack number readTag n :=
  readNumber_number (by decide) h

/-! ## Texts -/

theorem length_textBytes (s : String) : (textBytes s).length = s.utf8ByteSize := by
  unfold textBytes
  rw [Array.length_toList]
  rfl

theorem textOfBytes?_textBytes (s : String) : textOfBytes? (textBytes s) = some s := by
  unfold textOfBytes? textBytes
  rw [Array.toArray_toList]
  show String.fromUTF8? s.toByteArray = some s
  unfold String.fromUTF8?
  rw [dif_pos s.isValidUTF8]
  rfl

theorem readsBack_text {s : String} (h : s.utf8ByteSize < countLimit) :
    ReadsBack text readText s := by
  intro rest
  rw [← length_textBytes] at h
  have hlen : ¬ (textBytes s ++ rest).length < (textBytes s).length := by
    rw [List.length_append]
    omega
  rw [text, List.append_assoc, readText, readsBack_count h, ok_bind]
  simp only
  rw [if_neg hlen, List.take_left, List.drop_left, textOfBytes?_textBytes]
  rfl

/-! ## Options and lists -/

section

variable {α : Type} {write : α → Bytes} {read : Bytes → Except Fault (α × Bytes)}

theorem readsBack_option {o : Option α} (h : ∀ a, o = some a → ReadsBack write read a) :
    ReadsBack (option write) (readOption read) o := by
  intro rest
  cases o with
  | none => rfl
  | some a =>
      show (read (write a ++ rest) >>= fun p => pure (some p.1, p.2)) = _
      rw [h a rfl, ok_bind]
      rfl

theorem readItems_items {as : List α} (h : ∀ a ∈ as, ReadsBack write read a) (rest : Bytes) :
    readItems read as.length (items write as ++ rest) = .ok (as, rest) := by
  induction as with
  | nil => rfl
  | cons a as ih =>
      have ha : ReadsBack write read a := h a List.mem_cons_self
      have has := ih fun b hb => h b (List.mem_cons_of_mem a hb)
      rw [List.length_cons, items, List.append_assoc, readItems, ha, ok_bind]
      simp only
      rw [has, ok_bind]
      rfl

theorem readsBack_list {as : List α} (hcount : as.length < countLimit)
    (h : ∀ a ∈ as, ReadsBack write read a) : ReadsBack (list write) (readList read) as := by
  intro rest
  rw [list, List.append_assoc, readList, readsBack_count hcount, ok_bind]
  exact readItems_items h rest

end

end Packed
end GrammarRecords
