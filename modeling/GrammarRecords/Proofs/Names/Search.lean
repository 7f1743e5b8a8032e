/-
The search for a free name finds the least one.

`leastFree` looks at one candidate more than there are taken names.  When the
candidates are distinct this is enough: so many of them cannot all be taken, so
the search ends at a free one and has passed only taken ones.  `leastFree_iff`
says that nothing else about the search matters.  In particular the answer
depends on which names are taken and not on the list that holds them.

The numbered candidates for a base are distinct, because decimals are.  Names
that are claimed one after the other for a list of bases are distinct too, and
each of them is claimed against those before it (`claimAll`).
-/
import GrammarRecords.Names
import Mathlib.Data.List.Dedup
import Mathlib.Data.List.Nodup
import Mathlib.Data.List.Range

namespace GrammarRecords
namespace Names

/-! ## Numbered candidates -/

theorem toString_nat_injective {m n : Nat} (h : toString m = toString n) : m = n := by
  have hd : Nat.toDigits 10 m = Nat.toDigits 10 n := by
    rw [← Nat.toList_repr, ← Nat.toList_repr]
    exact congrArg String.toList h
  rw [← Nat.ofDigitChars_ten_toDigits (n := m), hd, Nat.ofDigitChars_ten_toDigits]

theorem toString_nat_ne_empty (n : Nat) : toString n ≠ "" := Nat.repr_ne_empty

/-- What is put behind the base: nothing at zero, else the decimal. -/
def suffix : Nat → String
  | 0 => ""
  | n + 1 => toString (n + 1)

theorem numbered_eq (base : String) (n : Nat) : numbered base n = base ++ suffix n := by
  cases n with
  | zero => exact String.append_empty.symm
  | succ n => rfl

theorem suffix_injective {m n : Nat} (h : suffix m = suffix n) : m = n := by
  cases m with
  | zero =>
      cases n with
      | zero => rfl
      | succ n => exact absurd h.symm (toString_nat_ne_empty (n + 1))
  | succ m =>
      cases n with
      | zero => exact absurd h (toString_nat_ne_empty (m + 1))
      | succ n => exact toString_nat_injective h

theorem isDigit_of_mem_toString {n : Nat} {c : Char} (h : c ∈ (toString n).toList) :
    c.isDigit = true := by
  have hc : c ∈ Nat.toDigits 10 n := by
    rw [← Nat.toList_repr]
    exact h
  exact Nat.isDigit_of_mem_toDigits (by decide) (by decide) hc

theorem isDigit_of_mem_suffix {n : Nat} {c : Char} (h : c ∈ (suffix n).toList) :
    c.isDigit = true := by
  cases n with
  | zero => exact absurd h (by simp [suffix])
  | succ n => exact isDigit_of_mem_toString h

theorem numbered_injective {base : String} {m n : Nat}
    (h : numbered base m = numbered base n) : m = n := by
  rw [numbered_eq, numbered_eq] at h
  exact suffix_injective ((String.append_right_inj base).mp h)

/-! ## The search -/

section Search

variable {taken : List String} {candidate : Nat → String}

theorem le_leastFreeFrom (taken : List String) (candidate : Nat → String) (fuel start : Nat) :
    start ≤ leastFreeFrom taken candidate fuel start := by
  induction fuel generalizing start with
  | zero => exact Nat.le_refl start
  | succ fuel ih =>
      unfold leastFreeFrom
      split
      · exact Nat.le_trans (Nat.le_succ start) (ih (start + 1))
      · exact Nat.le_refl start

/-- The search passes taken candidates only. -/
theorem mem_of_lt_leastFreeFrom {fuel start j : Nat} (hs : start ≤ j)
    (hj : j < leastFreeFrom taken candidate fuel start) : candidate j ∈ taken := by
  induction fuel generalizing start with
  | zero =>
      have h : j < start := hj
      omega
  | succ fuel ih =>
      unfold leastFreeFrom at hj
      split at hj
      · rename_i hstart
        by_cases e : j = start
        · subst e
          exact hstart
        · exact ih (show start + 1 ≤ j by omega) hj
      · omega

/-- A free candidate within the fuel stops the search there or before. -/
theorem leastFreeFrom_le {fuel start k : Nat} (hs : start ≤ k) (hk : k < start + fuel)
    (hfree : candidate k ∉ taken) :
    leastFreeFrom taken candidate fuel start ≤ k ∧
      candidate (leastFreeFrom taken candidate fuel start) ∉ taken := by
  induction fuel generalizing start with
  | zero => omega
  | succ fuel ih =>
      unfold leastFreeFrom
      split
      · rename_i hstart
        have hne : start ≠ k := by
          intro e
          subst e
          exact hfree hstart
        exact ih (show start + 1 ≤ k by omega) (by omega)
      · rename_i hstart
        exact ⟨hs, hstart⟩

variable (hinj : ∀ i j, candidate i = candidate j → i = j)

include hinj

/-- Each taken name accounts for one candidate at most. -/
theorem le_length_dedup {start n : Nat}
    (htaken : ∀ k, start ≤ k → k < start + n → candidate k ∈ taken) : n ≤ taken.dedup.length := by
  let tried := (List.range' start n).map candidate
  have hnodup : tried.Nodup :=
    List.Nodup.map (fun i j => hinj i j) List.nodup_range'
  have hsub : tried ⊆ taken.dedup := by
    intro x hx
    obtain ⟨k, hk, rfl⟩ := List.mem_map.mp hx
    rw [List.mem_range'_1] at hk
    exact List.mem_dedup.mpr (htaken k hk.1 hk.2)
  have hlen : tried.length = n := by simp [tried]
  rw [← hlen]
  exact hnodup.length_le_of_subset hsub

/-- Among one candidate more than there are taken names one is free. -/
theorem exists_free (taken : List String) (start : Nat) :
    ∃ k, start ≤ k ∧ k < start + (taken.length + 1) ∧ candidate k ∉ taken := by
  by_contra hnone
  have hall : ∀ k, start ≤ k → k < start + (taken.length + 1) → candidate k ∈ taken := by
    intro k hs hk
    by_contra hfree
    exact hnone ⟨k, hs, hk, hfree⟩
  have hle : taken.length + 1 ≤ taken.dedup.length := le_length_dedup hinj hall
  have hdedup : taken.dedup.length ≤ taken.length := (List.dedup_sublist taken).length_le
  omega

theorem leastFree_not_mem (taken : List String) (start : Nat) :
    candidate (leastFree taken candidate start) ∉ taken := by
  obtain ⟨k, hs, hk, hfree⟩ := exists_free hinj taken start
  exact (leastFreeFrom_le hs hk hfree).2

/-- The search passes no more candidates than there are different taken names. -/
theorem leastFree_le (taken : List String) (start : Nat) :
    leastFree taken candidate start ≤ start + taken.dedup.length := by
  have hpassed : ∀ k, start ≤ k → k < start + (leastFree taken candidate start - start) →
      candidate k ∈ taken := by
    intro k hs hk
    have hlt : k < leastFree taken candidate start := by omega
    exact mem_of_lt_leastFreeFrom hs hlt
  have hle := le_length_dedup hinj hpassed
  omega

/-- The answer is the least number from `start` on whose candidate is free. -/
theorem leastFree_iff {start n : Nat} :
    leastFree taken candidate start = n ↔
      start ≤ n ∧ candidate n ∉ taken ∧
        ∀ j, start ≤ j → j < n → candidate j ∈ taken := by
  have hle := le_leastFreeFrom taken candidate (taken.length + 1) start
  have hfree := leastFree_not_mem hinj taken start
  constructor
  · intro e
    subst e
    exact ⟨hle, hfree, fun j hs hj => mem_of_lt_leastFreeFrom hs hj⟩
  · rintro ⟨hn, hnfree, hbelow⟩
    rcases Nat.lt_trichotomy (leastFree taken candidate start) n with hlt | heq | hgt
    · exact absurd (hbelow _ hle hlt) hfree
    · exact heq
    · exact absurd (mem_of_lt_leastFreeFrom hn hgt) hnfree

/-- Where all candidates below a number are taken, the search may start at that number. -/
theorem leastFree_of_taken_below {start : Nat} (hbelow : ∀ j < start, candidate j ∈ taken) :
    leastFree taken candidate start = leastFree taken candidate 0 := by
  obtain ⟨-, hfree, hpassed⟩ := (leastFree_iff hinj).mp
    (rfl : leastFree taken candidate 0 = leastFree taken candidate 0)
  rw [leastFree_iff hinj]
  have hle : start ≤ leastFree taken candidate 0 :=
    Nat.le_of_not_lt fun hlt => hfree (hbelow _ hlt)
  exact ⟨hle, hfree, fun j _ hj => hpassed j (Nat.zero_le j) hj⟩

theorem leastFree_congr {taken' : List String} (hsame : ∀ x, x ∈ taken ↔ x ∈ taken')
    (start : Nat) :
    leastFree taken candidate start = leastFree taken' candidate start := by
  obtain ⟨hle, hfree, hbelow⟩ := (leastFree_iff hinj).mp
    (rfl : leastFree taken' candidate start = leastFree taken' candidate start)
  rw [leastFree_iff hinj]
  exact ⟨hle, fun h => hfree ((hsame _).mp h),
    fun j hs hj => (hsame _).mpr (hbelow j hs hj)⟩

end Search

/-! ## Claiming a name -/

/-- The candidates for a base stay distinct under `render`. -/
def Separates (render : String → String) : Prop :=
  ∀ base i j, render (numbered base i) = render (numbered base j) → i = j

section Claim

variable {render : String → String} (hsep : Separates render)

@[simp] theorem claim_taken (taken : List String) (base : String) :
    (claim taken render base).2 = (claim taken render base).1 :: taken := rfl

include hsep

theorem claim_not_mem (taken : List String) (base : String) :
    (claim taken render base).1 ∉ taken :=
  leastFree_not_mem (hsep base) taken 0

theorem claim_congr {taken taken' : List String} (hsame : ∀ x, x ∈ taken ↔ x ∈ taken')
    (base : String) :
    (claim taken render base).1 = (claim taken' render base).1 := by
  unfold claim
  simp only
  rw [leastFree_congr (hsep base) hsame]

/--
The claimed name is the rendered base if that is free, and else the first free
one among the candidates with a suffix.
-/
theorem claim_cases (taken : List String) (base : String) :
    (render base ∉ taken ∧ (claim taken render base).1 = render base) ∨
      (render base ∈ taken ∧ ∃ n, 1 ≤ n ∧
        (claim taken render base).1 = render (base ++ toString n) ∧
        render (base ++ toString n) ∉ taken ∧
        ∀ m, 1 ≤ m → m < n → render (base ++ toString m) ∈ taken) := by
  obtain ⟨n, hn⟩ : ∃ n, leastFree taken (fun n => render (numbered base n)) 0 = n := ⟨_, rfl⟩
  have hname : (claim taken render base).1 = render (numbered base n) := by
    rw [← hn]
    rfl
  obtain ⟨-, hfree, hbelow⟩ := (leastFree_iff (hsep base)).mp hn
  cases n with
  | zero => exact Or.inl ⟨hfree, hname⟩
  | succ n =>
      refine Or.inr ⟨hbelow 0 (Nat.le_refl 0) (Nat.succ_pos n), n + 1, by omega, hname, hfree, ?_⟩
      intro m hm hlt
      have h := hbelow m (Nat.zero_le m) hlt
      obtain ⟨k, rfl⟩ : ∃ k, m = k + 1 := ⟨m - 1, by omega⟩
      exact h

omit hsep in
theorem claim_of_not_mem {taken : List String} {base : String} (h : render base ∉ taken) :
    (claim taken render base).1 = render base := by
  have hzero : leastFree taken (fun n => render (numbered base n)) 0 = 0 := by
    rw [leastFree, leastFreeFrom]
    exact if_neg h
  show render (numbered base (leastFree taken (fun n => render (numbered base n)) 0)) = _
  rw [hzero]
  rfl

end Claim

/-! ## Claiming names one after the other -/

/-- The names for a list of bases, each claimed against `taken` and the names before it. -/
def claimAll (render : String → String) (taken : List String) : List String → List String
  | [] => []
  | base :: rest =>
      (claim taken render base).1 :: claimAll render ((claim taken render base).1 :: taken) rest

section ClaimAll

variable {render : String → String}

theorem length_claimAll (render : String → String) (taken bases : List String) :
    (claimAll render taken bases).length = bases.length := by
  induction bases generalizing taken with
  | nil => rfl
  | cons base rest ih => rw [claimAll, List.length_cons, List.length_cons, ih]

theorem exists_numbered_of_mem_claimAll {taken bases : List String} {x : String}
    (h : x ∈ claimAll render taken bases) : ∃ base ∈ bases, ∃ n, x = render (numbered base n) := by
  induction bases generalizing taken with
  | nil => exact absurd h List.not_mem_nil
  | cons base rest ih =>
      rw [claimAll, List.mem_cons] at h
      rcases h with rfl | hrest
      · exact ⟨base, List.mem_cons_self, _, rfl⟩
      · obtain ⟨other, hother, hn⟩ := ih hrest
        exact ⟨other, List.mem_cons_of_mem base hother, hn⟩

/-- Each name is claimed against those before it and the names taken at the start. -/
theorem claimAll_getElem? {taken bases : List String} {i : Nat} {base : String}
    (h : bases[i]? = some base) :
    (claimAll render taken bases)[i]? =
      some (claim (((claimAll render taken bases).take i).reverse ++ taken) render base).1 := by
  induction bases generalizing taken i with
  | nil => exact absurd h (by simp)
  | cons first rest ih =>
      rw [claimAll]
      cases i with
      | zero =>
          have hfirst : first = base := by simpa using h
          rw [hfirst]
          rfl
      | succ i =>
          rw [List.getElem?_cons_succ] at h
          rw [List.getElem?_cons_succ, ih h, List.take_succ_cons, List.reverse_cons,
            List.append_assoc, List.singleton_append]

/-- Names that stay distinct when they are rendered are only rendered. -/
theorem claimAll_eq_map {taken names : List String} (hnodup : (names.map render).Nodup)
    (hfree : ∀ name ∈ names, render name ∉ taken) :
    claimAll render taken names = names.map render := by
  induction names generalizing taken with
  | nil => rfl
  | cons name rest ih =>
      rw [List.map_cons, List.nodup_cons] at hnodup
      have hname := claim_of_not_mem (hfree name List.mem_cons_self)
      rw [claimAll, hname, List.map_cons]
      refine congrArg (render name :: ·) (ih hnodup.2 ?_)
      intro other hother hmem
      rcases List.mem_cons.mp hmem with heq | htaken
      · exact hnodup.1 (heq ▸ List.mem_map_of_mem hother)
      · exact hfree other (List.mem_cons_of_mem name hother) htaken

variable (hsep : Separates render)

include hsep

theorem not_mem_of_mem_claimAll {taken bases : List String} {x : String}
    (h : x ∈ claimAll render taken bases) : x ∉ taken := by
  induction bases generalizing taken with
  | nil => exact absurd h List.not_mem_nil
  | cons base rest ih =>
      rw [claimAll, List.mem_cons] at h
      rcases h with rfl | hrest
      · exact claim_not_mem hsep taken base
      · exact fun hx => ih hrest (List.mem_cons_of_mem _ hx)

theorem nodup_claimAll (taken bases : List String) : (claimAll render taken bases).Nodup := by
  induction bases generalizing taken with
  | nil => exact List.nodup_nil
  | cons base rest ih =>
      rw [claimAll, List.nodup_cons]
      exact ⟨fun h => not_mem_of_mem_claimAll hsep h List.mem_cons_self, ih _⟩

end ClaimAll

end Names
end GrammarRecords
