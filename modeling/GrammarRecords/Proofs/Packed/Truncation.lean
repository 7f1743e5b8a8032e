/-
Packed grammars that end too early.

`CutOf front whole` says that `front` is a beginning of `whole` with at least
one byte missing.  A cut through fields that stand one behind another falls
into the first field, or leaves it whole and falls into the rest (`cutOf_append`).
A reader gives back a whole field as it was written and asks for more bytes in
a cut one, so whatever it reads next decides: this is `bind_of_cut`, and each
reader of the format is an instance of it.  No reader ends before the bytes of
its field do, hence `unpack_take_pack`: wherever a packed grammar is cut, the
end of the bytes is what is reported.
-/
import GrammarRecords.Proofs.Packed.RoundTrip

namespace GrammarRecords
namespace Packed

/-! ## Cuts -/

/-- `front` is what remains of `whole` when its end is cut off. -/
def CutOf (front whole : Bytes) : Prop :=
  ∃ missing, missing ≠ [] ∧ front ++ missing = whole

theorem CutOf.length_lt {front whole : Bytes} (h : CutOf front whole) :
    front.length < whole.length := by
  obtain ⟨missing, hne, rfl⟩ := h
  have hpos : 0 < missing.length := List.length_pos_iff.mpr hne
  rw [List.length_append]
  omega

theorem cutOf_take {whole : Bytes} {n : Nat} (h : n < whole.length) :
    CutOf (whole.take n) whole := by
  refine ⟨whole.drop n, ?_, List.take_append_drop n whole⟩
  intro hnil
  have hle : whole.length ≤ n := List.drop_eq_nil_iff.mp hnil
  omega

theorem not_cutOf_nil (front : Bytes) : ¬ CutOf front [] := by
  intro h
  have hlt : front.length < 0 := h.length_lt
  omega

theorem cutOf_append {front first second : Bytes} (h : CutOf front (first ++ second)) :
    CutOf front first ∨ ∃ rest, front = first ++ rest ∧ CutOf rest second := by
  obtain ⟨missing, hne, he⟩ := h
  rcases List.append_eq_append_iff.mp he with ⟨back, hfirst, hmissing⟩ | ⟨rest, hfront, hsecond⟩
  · by_cases hback : back = []
    · refine Or.inr ⟨[], ?_, missing, hne, ?_⟩
      · rw [hfirst, hback, List.append_nil, List.append_nil]
      · rw [hmissing, hback, List.nil_append, List.nil_append]
    · exact Or.inl ⟨back, hback, hfirst.symm⟩
  · exact Or.inr ⟨rest, hfront, missing, hne, hsecond.symm⟩

theorem cutOf_cons {front bs : Bytes} {b : UInt8} (h : CutOf front (b :: bs)) :
    front = [] ∨ ∃ rest, front = b :: rest ∧ CutOf rest bs := by
  have happend : CutOf front ([b] ++ bs) := h
  rcases cutOf_append happend with hcut | hrest
  · have hlt : front.length < 1 := hcut.length_lt
    exact Or.inl (List.length_eq_zero_iff.mp (by omega))
  · exact Or.inr hrest

theorem cutOf_singleton {front : Bytes} {b : UInt8} (h : CutOf front [b]) : front = [] := by
  rcases cutOf_cons h with hnil | ⟨rest, -, hrest⟩
  · exact hnil
  · exact absurd hrest (not_cutOf_nil rest)

/-! ## Readers -/

/-- The reader asks for more bytes wherever what is written for `a` is cut. -/
def EndsShort {α : Type} (write : α → Bytes) (read : Bytes → Except Fault (α × Bytes))
    (a : α) : Prop :=
  ∀ front, CutOf front (write a) → read front = .error .endOfBuffer

theorem error_bind {α β : Type} (fault : Fault) (f : α → Except Fault β) :
    (Except.error fault >>= f) = .error fault := rfl

/--
One field read before others.  The last two hypotheses may use what the whole
first field is, because the bound on the depth of a tree is about the bytes at
hand.
-/
theorem bind_of_cut {α β : Type} {front first second : Bytes} {a : α}
    {read : Bytes → Except Fault (α × Bytes)} {next : α × Bytes → Except Fault β}
    (h : CutOf front (first ++ second))
    (hshort : CutOf front first → read front = .error .endOfBuffer)
    (hback : ∀ rest, front = first ++ rest → read front = .ok (a, rest))
    (hnext : ∀ rest, front = first ++ rest → CutOf rest second →
      next (a, rest) = .error .endOfBuffer) :
    (read front >>= next) = .error .endOfBuffer := by
  rcases cutOf_append h with hcut | ⟨rest, hfront, hcut⟩
  · rw [hshort hcut, error_bind]
  · rw [hback rest hfront, ok_bind]
    exact hnext rest hfront hcut

theorem ReadsBack.of_eq {α : Type} {write : α → Bytes}
    {read : Bytes → Except Fault (α × Bytes)} {a : α} (h : ReadsBack write read a)
    {front : Bytes} (rest : Bytes) (he : front = write a ++ rest) :
    read front = .ok (a, rest) := by
  rw [he]
  exact h rest

/-! ## Numbers and texts -/

/-- Every byte but the last promises another one. -/
theorem readNumber_of_cut {width top n : Nat} (htop : top < 128)
    (h : n < (top + 1) * 128 ^ width) {front : Bytes} (hcut : CutOf front (number n)) :
    readNumber (width + 1) top front = .error .endOfBuffer := by
  induction width generalizing n front with
  | zero =>
      have hle : n < top + 1 := by simpa using h
      rw [number_small (by omega)] at hcut
      rw [cutOf_singleton hcut]
      rfl
  | succ width ih =>
      by_cases hn : n < 128
      · rw [number_small hn] at hcut
        rw [cutOf_singleton hcut]
        rfl
      · have hdiv : n / 128 < (top + 1) * 128 ^ width := by
          rw [Nat.pow_succ, ← Nat.mul_assoc] at h
          exact Nat.div_lt_of_lt_mul (by rw [Nat.mul_comm]; exact h)
        rw [number_large hn] at hcut
        rcases cutOf_cons hcut with rfl | ⟨rest, rfl, hrest⟩
        · rfl
        · rw [readNumber, toNat_ofNat_small (by omega), if_neg (by omega), ih hdiv hrest,
            error_bind]

theorem endsShort_count {n : Nat} (h : n < countLimit) : EndsShort number readCount n :=
  fun _ hcut => readNumber_of_cut (by decide) h hcut

theorem endsShort_tag {n : Nat} (h : n < tagLimit) : EndsShort number readTag n :=
  fun _ hcut => readNumber_of_cut (by decide) h hcut

theorem endsShort_text {s : String} (h : s.utf8ByteSize < countLimit) :
    EndsShort text readText s := by
  intro front hcut
  rw [← length_textBytes] at h
  refine bind_of_cut hcut (endsShort_count h front) (readsBack_count h).of_eq ?_
  intro rest _ hrest
  have hlen : rest.length < (textBytes s).length := hrest.length_lt
  simp only [if_pos hlen]
  rfl

/-! ## Options and lists -/

section

variable {α : Type} {write : α → Bytes} {read : Bytes → Except Fault (α × Bytes)}

theorem endsShort_option {o : Option α} (h : ∀ a, o = some a → EndsShort write read a) :
    EndsShort (option write) (readOption read) o := by
  intro front hcut
  cases o with
  | none =>
      rw [cutOf_singleton hcut]
      rfl
  | some a =>
      rcases cutOf_cons hcut with rfl | ⟨rest, rfl, hrest⟩
      · rfl
      · show (read rest >>= fun p => pure (some p.1, p.2)) = _
        rw [h a rfl rest hrest, error_bind]

theorem readItems_of_cut {as : List α} (hback : ∀ a ∈ as, ReadsBack write read a)
    (hshort : ∀ a ∈ as, EndsShort write read a) {front : Bytes}
    (hcut : CutOf front (items write as)) :
    readItems read as.length front = .error .endOfBuffer := by
  induction as generalizing front with
  | nil => exact absurd hcut (not_cutOf_nil front)
  | cons a as ih =>
      refine bind_of_cut hcut (hshort a List.mem_cons_self front)
        (hback a List.mem_cons_self).of_eq ?_
      intro rest _ hrest
      have htail := ih (fun b hb => hback b (List.mem_cons_of_mem a hb))
        (fun b hb => hshort b (List.mem_cons_of_mem a hb)) hrest
      simp only [htail, error_bind]

theorem endsShort_list {as : List α} (hcount : as.length < countLimit)
    (hback : ∀ a ∈ as, ReadsBack write read a) (hshort : ∀ a ∈ as, EndsShort write read a) :
    EndsShort (list write) (readList read) as := by
  intro front hcut
  refine bind_of_cut hcut (endsShort_count hcount front) (readsBack_count hcount).of_eq ?_
  intro rest _ hrest
  exact readItems_of_cut hback hshort hrest

end

end Packed

open Packed

/-! ## Trees -/

namespace Node

theorem endsShort_kind (k : NodeKind) : EndsShort (fun k => number k.tag) readKind k := by
  intro front hcut
  have htag : k.tag < tagLimit := by cases k <;> decide
  show (readTag front >>= _) = _
  rw [endsShort_tag htag front hcut, error_bind]

theorem one_le_length_kind (k : NodeKind) : 1 ≤ (number k.tag).length := by
  have h : number k.tag = [UInt8.ofNat k.tag] := number_small (by cases k <;> decide)
  rw [h]
  exact Nat.le_refl 1

mutual

/--
The bytes of the kind are behind when the children are read, so the bound on
the depth is again larger than the number of bytes at hand, and it is not what
ends the reading.
-/
theorem readPacked_of_cut : ∀ {n : Node}, n.Fits → ∀ {depth : Nat} {front : Bytes},
    front.length < depth → CutOf front (packed n) →
      readPacked depth front = .error .endOfBuffer
  | .mk kind text children, _, 0, _, hdepth, _ => absurd hdepth (Nat.not_lt_zero _)
  | .mk kind text children, ⟨htext, hcount, hall⟩, depth + 1, front, hdepth, hcut => by
      have hback : ReadsBack (option Packed.text) (readOption readText) text :=
        readsBack_option fun s hs => readsBack_text (htext s hs)
      have hshort : EndsShort (option Packed.text) (readOption readText) text :=
        endsShort_option fun s hs => endsShort_text (htext s hs)
      rw [packed, List.append_assoc] at hcut
      refine bind_of_cut hcut (endsShort_kind kind front) (readsBack_kind kind).of_eq ?_
      intro afterKind hkind hcut
      refine bind_of_cut hcut (hshort afterKind) hback.of_eq ?_
      intro afterText htextEnd hcut
      have hlength : afterText.length < depth := by
        have hone := one_le_length_kind kind
        rw [hkind, htextEnd, List.length_append, List.length_append] at hdepth
        omega
      have hchildren : readList (readPacked depth) afterText = .error .endOfBuffer := by
        refine bind_of_cut hcut (endsShort_count hcount afterText)
          (readsBack_count hcount).of_eq ?_
        intro rest hrest hcut
        refine readItems_of_cut_packedAll hall ?_ hcut
        rw [hrest, List.length_append] at hlength
        omega
      simp only [hchildren, error_bind]

theorem readItems_of_cut_packedAll : ∀ {ns : List Node}, AllFit ns → ∀ {depth : Nat}
    {front : Bytes}, front.length < depth → CutOf front (packedAll ns) →
      readItems (readPacked depth) ns.length front = .error .endOfBuffer
  | [], _, _, front, _, hcut => absurd hcut (not_cutOf_nil front)
  | n :: ns, ⟨hn, hns⟩, depth, front, hdepth, hcut => by
      have hback : ∀ rest, front = packed n ++ rest → readPacked depth front = .ok (n, rest) := by
        intro rest hrest
        have hfirst : (packed n).length < depth := by
          rw [hrest, List.length_append] at hdepth
          omega
        exact (readsBack_node hn hfirst).of_eq rest hrest
      refine bind_of_cut hcut (readPacked_of_cut hn hdepth) hback ?_
      intro rest hrest hcut
      have hlength : rest.length < depth := by
        rw [hrest, List.length_append] at hdepth
        omega
      simp only [readItems_of_cut_packedAll hns hlength hcut, error_bind]

end

theorem endsShort_packed {n : Node} (h : n.Fits) :
    EndsShort packed (fun bs => readPacked (bs.length + 1) bs) n :=
  fun front hcut => readPacked_of_cut h (Nat.lt_succ_self front.length) hcut

end Node

namespace RuleBody

theorem endsShort_body {body : RuleBody} (h : body.Fits) :
    EndsShort packed readPacked body := by
  intro front hcut
  have hlist : EndsShort (list (option Node.packed))
      (readList (readOption fun bs => Node.readPacked (bs.length + 1) bs)) body.alternatives := by
    refine endsShort_list h.count (fun o ho => readsBack_option fun n hn => ?_)
      (fun o ho => endsShort_option fun n hn => ?_)
    · subst hn
      exact Node.readsBack_packed (h.nodes n ho)
    · subst hn
      exact Node.endsShort_packed (h.nodes n ho)
  show (readList _ front >>= _) = _
  rw [hlist front hcut, error_bind]

end RuleBody

/-! ## Grammars -/

namespace Grammar

theorem endsShort_rule {rule : String × RuleBody} (hname : rule.1.utf8ByteSize < countLimit)
    (hbody : rule.2.Fits) : EndsShort packedRule readRule rule := by
  intro front hcut
  refine bind_of_cut hcut (endsShort_text hname front) (readsBack_text hname).of_eq ?_
  intro rest _ hrest
  simp only [RuleBody.endsShort_body hbody rest hrest, error_bind]

theorem endsShort_payload {g : Grammar} (h : g.Fits) : EndsShort payload readPayload g := by
  intro front hcut
  have hrules : EndsShort (list packedRule) (readList readRule) g.rules.entries :=
    endsShort_list h.count
      (fun rule hrule => readsBack_rule (h.ruleNames rule hrule) (h.bodies rule hrule))
      (fun rule hrule => endsShort_rule (h.ruleNames rule hrule) (h.bodies rule hrule))
  refine bind_of_cut hcut (endsShort_text h.name front) (readsBack_text h.name).of_eq ?_
  intro rest _ hrest
  simp only [hrules rest hrest, error_bind]

/-- Behind the mark and the version byte there is only the payload to cut. -/
theorem unpack_of_cut_payload {g : Grammar} (h : g.Fits) {front : Bytes}
    (hcut : CutOf front g.payload) :
    unpack (mark ++ formatVersion :: front) = .error (.payload .endOfBuffer) := by
  have hmark : (mark ++ formatVersion :: front).take mark.length = mark := rfl
  have hrest : (mark ++ formatVersion :: front).drop mark.length = formatVersion :: front := rfl
  rw [unpack, if_pos hmark, hrest]
  simp only
  rw [if_pos trivial, endsShort_payload h front hcut]

/--
A packed grammar that is cut off anywhere is rejected: for lack of the mark and
the version byte, and behind these because the bytes have ended.
-/
theorem unpack_take_pack {g : Grammar} (h : g.Fits) {n : Nat} (hn : n < g.pack.length) :
    unpack (g.pack.take n) =
      .error (if n ≤ 4 then .notPacked else .payload .endOfBuffer) := by
  match n, hn with
  | 0, _ => rfl
  | 1, _ => rfl
  | 2, _ => rfl
  | 3, _ => rfl
  | 4, _ => rfl
  | m + 5, hn =>
      have hlength : m < g.payload.length := by
        have hpack : g.pack.length = g.payload.length + 5 := rfl
        omega
      have htake : g.pack.take (m + 5) = mark ++ formatVersion :: g.payload.take m := rfl
      rw [htake, if_neg (by omega)]
      exact unpack_of_cut_payload h (cutOf_take hlength)

/-- One cut is behind the mark, the other between the two bytes of the letter `é`. -/
theorem unpack_take_pack_branching :
    branching.Fits ∧ branching.pack.length = 30 ∧
      unpack (branching.pack.take 4) = .error .notPacked ∧
      unpack (branching.pack.take 24) = .error (.payload .endOfBuffer) := by
  have hlength : branching.pack.length = 30 := by decide +kernel
  exact ⟨fits_branching, hlength, unpack_take_pack fits_branching (by omega),
    unpack_take_pack fits_branching (by omega)⟩

end Grammar
end GrammarRecords
