/-
Renaming stops where a candidate is left.

A name that is taken gets a number behind it, and the number grows until the
name is free.  `Renames` is the loop as it stands.  Its number has 32 bits and a
sign, so it does not grow forever: past the last number an addition that is
checked fails, and one that is not goes on with the least number.

The candidates for one base stay distinct when they are escaped, those with a
number below zero included.  So each taken name turns away one candidate at most,
and the loop ends with a free name unless every candidate that it can reach is
taken: `renaming_stops_iff`.  While fewer than `2 ^ 31 - 1` names are taken it
ends with the name that `claim` finds, whose numbers have no end.
-/
import GrammarRecords.Proofs.Render.Escaping
import Mathlib.Algebra.Group.Nat.Defs
import Mathlib.Data.Finset.Card
import Mathlib.Data.Nat.Find

namespace GrammarRecords
namespace Names

/-! ## The loop -/

/-- What an addition does behind the last number. -/
inductive Overflow where
  | fails
  | wraps
deriving DecidableEq, Repr

/-- A candidate, and the number for the next one. -/
structure Attempt where
  candidate : String
  number : Int32
deriving DecidableEq, Repr

namespace Attempt

def first (render : String → String) (base : String) : Attempt := ⟨render base, 1⟩

/-- The next candidate, if the number can grow. -/
def next? (overflow : Overflow) (render : String → String) (base : String) (a : Attempt) :
    Option Attempt :=
  if overflow = .fails ∧ a.number = Int32.maxValue then none
  else some ⟨render (base ++ toString a.number), a.number + 1⟩

end Attempt

/-- A name with the names that are taken from then on, or a number that could not grow. -/
inductive Ending where
  | named (name : String) (taken : List String)
  | overflowed
deriving DecidableEq, Repr

/-- From an attempt on, the loop looks at so many candidates and comes to its end. -/
inductive Renames (overflow : Overflow) (taken : List String) (render : String → String)
    (base : String) : Attempt → Nat → Ending → Prop
  | free {a : Attempt} : a.candidate ∉ taken →
      Renames overflow taken render base a 1 (.named a.candidate (a.candidate :: taken))
  | again {a b : Attempt} {looked : Nat} {ending : Ending} : a.candidate ∈ taken →
      a.next? overflow render base = some b → Renames overflow taken render base b looked ending →
      Renames overflow taken render base a (looked + 1) ending
  | stuck {a : Attempt} : a.candidate ∈ taken → a.next? overflow render base = none →
      Renames overflow taken render base a 1 .overflowed

/-- An attempt leaves the loop no choice. -/
theorem Renames.unique {overflow : Overflow} {taken : List String} {render : String → String}
    {base : String} {a : Attempt} {looked looked' : Nat} {ending ending' : Ending}
    (h : Renames overflow taken render base a looked ending)
    (h' : Renames overflow taken render base a looked' ending') :
    looked' = looked ∧ ending' = ending := by
  induction h generalizing looked' ending' with
  | free hfree =>
      cases h' with
      | free _ => exact ⟨rfl, rfl⟩
      | again htaken _ _ => exact absurd htaken hfree
      | stuck htaken _ => exact absurd htaken hfree
  | again htaken hnext _ ih =>
      cases h' with
      | free hfree => exact absurd htaken hfree
      | again _ hnext' hrest =>
          obtain rfl := Option.some.inj (hnext.symm.trans hnext')
          obtain ⟨rfl, rfl⟩ := ih hrest
          exact ⟨rfl, rfl⟩
      | stuck _ hnone => exact absurd (hnext.symm.trans hnone) (Option.some_ne_none _)
  | stuck htaken hnone =>
      cases h' with
      | free hfree => exact absurd htaken hfree
      | again _ hnext _ => exact absurd (hnext.symm.trans hnone) (Option.some_ne_none _)
      | stuck _ _ => exact ⟨rfl, rfl⟩

/-! ## The candidates -/

/-- What stands behind the base once so many candidates are taken. -/
def counted : Nat → String
  | 0 => ""
  | n + 1 => toString (Int32.ofNat (n + 1))

/-- Below the last number the counter is the decimal of the number of attempts. -/
theorem counted_eq_suffix {n : Nat} (h : n < 2 ^ 31) : counted n = suffix n := by
  cases n with
  | zero => rfl
  | succ n =>
      show (Int32.ofNat (n + 1)).toInt.repr = toString (n + 1)
      rw [Int32.toInt_ofNat_of_lt h]
      rfl

theorem ofNat_eq_iff {m n : Nat} : Int32.ofNat m = Int32.ofNat n ↔ m % 2 ^ 32 = n % 2 ^ 32 := by
  rw [← Int32.toBitVec_inj, Int32.toBitVec_ofNat', Int32.toBitVec_ofNat', ← BitVec.toNat_inj,
    BitVec.toNat_ofNat, BitVec.toNat_ofNat]

/-- A decimal has no sign, or a minus before that of a natural number. -/
theorem toString_int32_cases (n : Int32) :
    (∃ m : Nat, n.toInt = m ∧ toString n = toString m) ∨
      ∃ m : Nat, n.toInt = -(m + 1) ∧ toString n = "-" ++ toString (m + 1) := by
  show (∃ m : Nat, n.toInt = m ∧ n.toInt.repr = toString m) ∨
    ∃ m : Nat, n.toInt = -(m + 1) ∧ n.toInt.repr = "-" ++ toString (m + 1)
  cases n.toInt with
  | ofNat m => exact Or.inl ⟨m, rfl, rfl⟩
  | negSucc m => exact Or.inr ⟨m, Int.negSucc_eq m, rfl⟩

theorem toString_ne_minus (m : Nat) (text : String) : toString m ≠ "-" ++ text := by
  intro h
  have hmem : '-' ∈ (toString m).toList := by
    rw [h, String.toList_append]
    exact List.mem_append_left _ (by decide)
  exact absurd (isDigit_of_mem_toString hmem) (by decide)

theorem toString_int32_injective {m n : Int32} (h : toString m = toString n) : m = n := by
  rw [← Int32.toInt_inj]
  rcases toString_int32_cases m with ⟨a, ha, hm⟩ | ⟨a, ha, hm⟩ <;>
    rcases toString_int32_cases n with ⟨b, hb, hn⟩ | ⟨b, hb, hn⟩ <;>
    rw [hm, hn] at h
  · rw [ha, hb, toString_nat_injective h]
  · exact absurd h (toString_ne_minus a _)
  · exact absurd h.symm (toString_ne_minus b _)
  · have hab := toString_nat_injective ((String.append_right_inj "-").mp h)
    omega

theorem toString_int32_ne_empty (n : Int32) : toString n ≠ "" := by
  rcases toString_int32_cases n with ⟨m, -, hn⟩ | ⟨m, -, hn⟩ <;> rw [hn]
  · exact toString_nat_ne_empty m
  · exact fun h => absurd (String.append_eq_empty_iff.mp h).1 (by decide)

theorem counted_injective {i j : Nat} (hi : i < 2 ^ 32 + 1) (hj : j < 2 ^ 32 + 1)
    (h : counted i = counted j) : i = j := by
  cases i with
  | zero =>
      cases j with
      | zero => rfl
      | succ j => exact absurd h.symm (toString_int32_ne_empty _)
  | succ i =>
      cases j with
      | zero => exact absurd h (toString_int32_ne_empty _)
      | succ j =>
          have hmod := ofNat_eq_iff.mp (toString_int32_injective h)
          omega

/-- The numbers come around, so that later candidates are none but the first ones again. -/
theorem exists_counted_lt (n : Nat) : ∃ j < 2 ^ 32 + 1, counted j = counted n := by
  cases n with
  | zero => exact ⟨0, by decide, rfl⟩
  | succ n =>
      have hsame : Int32.ofNat (n % 2 ^ 32 + 1) = Int32.ofNat (n + 1) := by
        rw [ofNat_eq_iff]
        omega
      refine ⟨n % 2 ^ 32 + 1, by omega, ?_⟩
      rw [counted, counted, hsame]

theorem unmarked_counted (n : Nat) : Unmarked (counted n) := by
  refine unmarked_of_minus_or_digit fun c hc => ?_
  cases n with
  | zero => exact absurd hc List.not_mem_nil
  | succ n =>
      rcases toString_int32_cases (Int32.ofNat (n + 1)) with ⟨m, -, hm⟩ | ⟨m, -, hm⟩
      · rw [counted, hm] at hc
        exact Or.inr (isDigit_of_mem_toString hc)
      · rw [counted, hm, String.toList_append] at hc
        rcases List.mem_append.mp hc with hminus | hdigit
        · exact Or.inl (List.mem_singleton.mp hminus)
        · exact Or.inr (isDigit_of_mem_toString hdigit)

/-- As many candidates as the loop can reach. -/
def Overflow.room : Overflow → Nat
  | .fails => 2 ^ 31 - 1
  | .wraps => 2 ^ 32 + 1

theorem Overflow.le_room (overflow : Overflow) : 2 ^ 31 - 1 ≤ overflow.room := by
  cases overflow <;> decide

/-- The candidates within reach are distinct. -/
theorem injOn_escape_counted (overflow : Overflow) (dialect : Dialect) (ks : Keywords)
    (base : String) :
    Set.InjOn (fun n => ks.escape dialect (base ++ counted n)) {n | n < overflow.room} := by
  intro i hi j hj h
  have hroom : overflow.room ≤ 2 ^ 32 + 1 := by cases overflow <;> decide
  exact counted_injective (Nat.lt_of_lt_of_le hi hroom) (Nat.lt_of_lt_of_le hj hroom)
    (escape_append_injective (unmarked_counted i) dialect ks (unmarked_counted j) h)

/-! ## Runs -/

section

variable {overflow : Overflow} {taken : List String} {render : String → String} {base : String}

/-- The attempt that so many others come before. -/
def Attempt.after (render : String → String) (base : String) (n : Nat) : Attempt :=
  ⟨render (base ++ counted n), Int32.ofNat (n + 1)⟩

theorem Attempt.after_zero (render : String → String) (base : String) :
    Attempt.after render base 0 = Attempt.first render base := by
  rw [after, counted, String.append_empty]
  rfl

theorem Attempt.next?_after {n : Nat} (h : overflow = .wraps ∨ n + 1 < 2 ^ 31 - 1) :
    (Attempt.after render base n).next? overflow render base =
      some (Attempt.after render base (n + 1)) := by
  have hgrows : ¬ (overflow = .fails ∧ (Attempt.after render base n).number = Int32.maxValue) := by
    rintro ⟨rfl, hlast⟩
    have hlt : n + 1 < 2 ^ 31 - 1 := h.resolve_left Overflow.noConfusion
    have hnumber : (Int32.ofNat (n + 1)).toInt = Int32.maxValue.toInt := congrArg Int32.toInt hlast
    rw [Int32.toInt_ofNat_of_lt (by omega), Int32.toInt_maxValue] at hnumber
    omega
  have hnumber : Int32.ofNat (n + 1) + 1 = Int32.ofNat (n + 1 + 1) :=
    (Int32.ofNat_add (n + 1) 1).symm
  rw [next?, if_neg hgrows]
  exact congrArg (fun number => some (mk (render (base ++ counted (n + 1))) number)) hnumber

/-- Behind the last number there is no candidate, if additions are checked. -/
theorem Attempt.next?_after_last :
    (Attempt.after render base (2 ^ 31 - 2)).next? .fails render base = none := by
  have hlast : Int32.ofNat (2 ^ 31 - 2 + 1) = Int32.maxValue := by decide
  exact if_pos ⟨rfl, hlast⟩

namespace Renames

/-- Past candidates that are all taken the loop runs to the first free one. -/
theorem of_taken_before {start gap n : Nat} (hn : start + gap = n) (hroom : n < overflow.room)
    (hfree : render (base ++ counted n) ∉ taken)
    (hbefore : ∀ j, start ≤ j → j < n → render (base ++ counted j) ∈ taken) :
    Renames overflow taken render base (.after render base start) (gap + 1)
      (.named (render (base ++ counted n)) (render (base ++ counted n) :: taken)) := by
  induction gap generalizing start with
  | zero =>
      obtain rfl : start = n := hn
      exact @free _ _ _ _ (.after render base start) hfree
  | succ gap ih =>
      have hgrows : overflow = .wraps ∨ start + 1 < 2 ^ 31 - 1 := by
        cases overflow with
        | fails =>
            have hlast : n < 2 ^ 31 - 1 := hroom
            exact Or.inr (by omega)
        | wraps => exact Or.inl rfl
      refine again (hbefore start (Nat.le_refl start) (by omega)) (Attempt.next?_after hgrows) ?_
      exact ih (by omega) fun j hstart hj => hbefore j (by omega) hj

/-- If additions are checked and no candidate is free, the number cannot grow in the end. -/
theorem of_taken_all {start gap : Nat} (hn : start + gap = 2 ^ 31 - 2)
    (hall : ∀ j < 2 ^ 31 - 1, render (base ++ counted j) ∈ taken) :
    Renames .fails taken render base (.after render base start) (gap + 1) .overflowed := by
  have htaken : render (base ++ counted start) ∈ taken := hall start (by omega)
  induction gap generalizing start with
  | zero =>
      obtain rfl : start = 2 ^ 31 - 2 := hn
      exact stuck htaken Attempt.next?_after_last
  | succ gap ih =>
      have hgrows : Overflow.fails = .wraps ∨ start + 1 < 2 ^ 31 - 1 := Or.inr (by omega)
      exact again htaken (Attempt.next?_after hgrows) (ih (by omega) (hall _ (by omega)))

/-- If numbers come around and no candidate is free, the loop has no end. -/
theorem false_of_taken_all (hall : ∀ j < 2 ^ 32 + 1, render (base ++ counted j) ∈ taken)
    {n looked : Nat} {ending : Ending}
    (h : Renames .wraps taken render base (.after render base n) looked ending) : False := by
  have htaken : ∀ n, render (base ++ counted n) ∈ taken := by
    intro n
    obtain ⟨j, hj, hsame⟩ := exists_counted_lt n
    rw [← hsame]
    exact hall j hj
  have hnext : ∀ n, (Attempt.after render base n).next? .wraps render base =
      some (Attempt.after render base (n + 1)) := fun n => Attempt.next?_after (Or.inl rfl)
  generalize ha : Attempt.after render base n = a at h
  induction h generalizing n with
  | free hfree => exact hfree (ha ▸ htaken n)
  | again _ hb _ ih =>
      refine ih (n := n + 1) (Option.some.inj ?_)
      rw [← hb, ← ha, hnext]
  | stuck _ hnone =>
      rw [← ha, hnext] at hnone
      exact Option.some_ne_none _ hnone

end Renames

/-! ## Where the loop stops -/

/--
The loop ends with a name that was free and is the only one that is taken in
addition, after one candidate more than there are names taken at most.
-/
def Stops (overflow : Overflow) (taken : List String) (render : String → String)
    (base : String) : Prop :=
  ∃ looked ≤ taken.toFinset.card + 1, ∃ name ∉ taken, ∀ n ending,
    Renames overflow taken render base (.first render base) n ending ↔
      n = looked ∧ ending = .named name (name :: taken)

theorem Stops.exists_renames (h : Stops overflow taken render base) :
    ∃ looked name, Renames overflow taken render base (.first render base) looked
      (.named name (name :: taken)) := by
  obtain ⟨looked, -, name, -, hloop⟩ := h
  exact ⟨looked, name, (hloop _ _).mpr ⟨rfl, rfl⟩⟩

theorem not_stops_of_taken_all
    (hall : ∀ n < overflow.room, render (base ++ counted n) ∈ taken) :
    ¬ Stops overflow taken render base := by
  intro hstops
  obtain ⟨looked, name, hloop⟩ := hstops.exists_renames
  rw [← Attempt.after_zero] at hloop
  cases overflow with
  | fails => exact Ending.noConfusion (hloop.unique (.of_taken_all (Nat.zero_add _) hall)).2
  | wraps => exact hloop.false_of_taken_all hall

section

variable (hdistinct : Set.InjOn (fun n => render (base ++ counted n)) {n | n < overflow.room})

include hdistinct

/-- Each taken name turns away one candidate at most. -/
theorem le_card_of_taken_before {n : Nat} (hn : n ≤ overflow.room)
    (hbefore : ∀ j < n, render (base ++ counted j) ∈ taken) : n ≤ taken.toFinset.card := by
  have hmaps : Set.MapsTo (fun j => render (base ++ counted j)) (Finset.range n)
      taken.toFinset := by
    intro j hj
    rw [Finset.mem_coe, List.mem_toFinset]
    exact hbefore j (Finset.mem_range.mp hj)
  have hinj : Set.InjOn (fun j => render (base ++ counted j)) (Finset.range n) :=
    hdistinct.mono fun j hj => Nat.lt_of_lt_of_le (Finset.mem_range.mp hj) hn
  rw [← Finset.card_range n]
  exact Finset.card_le_card_of_injOn _ hmaps hinj

theorem exists_free_of_card_lt (h : taken.toFinset.card < overflow.room) :
    ∃ n < overflow.room, render (base ++ counted n) ∉ taken := by
  by_contra hnone
  have htaken : ∀ n < overflow.room, render (base ++ counted n) ∈ taken := by
    intro n hn
    by_contra hfree
    exact hnone ⟨n, hn, hfree⟩
  exact absurd (le_card_of_taken_before hdistinct (Nat.le_refl _) htaken) (Nat.not_le_of_lt h)

theorem stops_of_taken_before {n : Nat} (hroom : n < overflow.room)
    (hfree : render (base ++ counted n) ∉ taken)
    (hbefore : ∀ j < n, render (base ++ counted j) ∈ taken) :
    Stops overflow taken render base := by
  have hle := le_card_of_taken_before hdistinct (Nat.le_of_lt hroom) hbefore
  have hloop := Renames.of_taken_before (Nat.zero_add n) hroom hfree fun j _ hj => hbefore j hj
  rw [Attempt.after_zero] at hloop
  refine ⟨n + 1, Nat.succ_le_succ hle, _, hfree, fun k ending => ⟨hloop.unique, ?_⟩⟩
  rintro ⟨rfl, rfl⟩
  exact hloop

theorem stops_iff :
    Stops overflow taken render base ↔
      ∃ n < overflow.room, render (base ++ counted n) ∉ taken := by
  constructor
  · intro hstops
    by_contra hnone
    refine not_stops_of_taken_all (fun n hn => ?_) hstops
    by_contra hfree
    exact hnone ⟨n, hn, hfree⟩
  · intro hfree
    classical
    obtain ⟨hroom, hfirst⟩ := Nat.find_spec hfree
    refine stops_of_taken_before hdistinct hroom hfirst fun j hj => ?_
    by_contra hj'
    exact Nat.find_min hfree hj ⟨Nat.lt_trans hj hroom, hj'⟩

end

/-- While there is a number for every candidate, the loop finds what `claim` finds. -/
theorem exists_renames_claim (hsep : Separates render) (hcard : taken.toFinset.card < 2 ^ 31 - 1) :
    ∃ looked, Renames overflow taken render base (.first render base) looked
      (.named (claim taken render base).1 (claim taken render base).2) := by
  let candidate := fun n => render (numbered base n)
  have hle : leastFree taken candidate 0 ≤ taken.toFinset.card := by
    rw [List.card_toFinset, ← Nat.zero_add taken.dedup.length]
    exact leastFree_le (hsep base) taken 0
  have hnumbered : ∀ n ≤ leastFree taken candidate 0,
      render (base ++ counted n) = render (numbered base n) := by
    intro n hn
    rw [counted_eq_suffix (by omega), numbered_eq]
  obtain ⟨-, hfree, hbefore⟩ := (leastFree_iff (hsep base)).mp
    (rfl : leastFree taken candidate 0 = leastFree taken candidate 0)
  have hroom : leastFree taken candidate 0 < overflow.room :=
    Nat.lt_of_lt_of_le (by omega) overflow.le_room
  have hname := hnumbered _ (Nat.le_refl _)
  have htaken : ∀ j, 0 ≤ j → j < leastFree taken candidate 0 →
      render (base ++ counted j) ∈ taken := by
    intro j hstart hj
    rw [hnumbered j (Nat.le_of_lt hj)]
    exact hbefore j hstart hj
  have hloop := Renames.of_taken_before (Nat.zero_add _) hroom (hname ▸ hfree) htaken
  rw [Attempt.after_zero, hname] at hloop
  exact ⟨_, hloop⟩

end

/--
In every dialect and with whatever words reserved, the candidates for a base are
distinct.  The loop stops exactly if one of those within its reach is free.  With
fewer than `2 ^ 31 - 1` names taken there is one, and the loop ends with the name
that is claimed.
-/
theorem renaming_stops_iff (overflow : Overflow) (dialect : Dialect) (ks : Keywords)
    (taken : List String) (base : String) :
    let render := ks.escape dialect
    (Function.Injective fun n => render (numbered base n)) ∧
    (Stops overflow taken render base ↔
      ∃ n < overflow.room, render (base ++ counted n) ∉ taken) ∧
    (taken.toFinset.card < 2 ^ 31 - 1 →
      Stops overflow taken render base ∧
      ∃ looked, Renames overflow taken render base (.first render base) looked
        (.named (claim taken render base).1 (claim taken render base).2)) := by
  intro render
  have hsep : Separates render := separates_keywords dialect ks
  have hdistinct := injOn_escape_counted overflow dialect ks base
  refine ⟨hsep base, stops_iff hdistinct, fun hcard => ⟨?_, exists_renames_claim hsep hcard⟩⟩
  exact (stops_iff hdistinct).mpr
    (exists_free_of_card_lt hdistinct (Nat.lt_of_lt_of_le hcard overflow.le_room))

/-- Two candidates are escaped and taken; the third one is no reserved word. -/
theorem renaming_stops_reserved :
    ["type_", "type1_"].toFinset.card < 2 ^ 31 - 1 ∧
      ∃ looked, Renames .fails ["type_", "type1_"]
        (Keywords.escape .generic (.ofList ["type", "type1"])) "type"
        (.first (Keywords.escape .generic (.ofList ["type", "type1"])) "type") looked
        (.named "type2" ["type2", "type_", "type1_"]) := by
  have hcard : ["type_", "type1_"].toFinset.card < 2 ^ 31 - 1 := by decide
  have hclaim : claim ["type_", "type1_"]
      (Keywords.escape .generic (.ofList ["type", "type1"])) "type" =
        ("type2", ["type2", "type_", "type1_"]) := by
    decide +kernel
  have hloop := ((renaming_stops_iff .fails .generic (.ofList ["type", "type1"])
    ["type_", "type1_"] "type").2.2 hcard).2
  rw [hclaim] at hloop
  exact ⟨hcard, hloop⟩

/-- All candidates for a base within the reach of the loop. -/
def withinReach (overflow : Overflow) (base : String) : List String :=
  (List.range overflow.room).map fun n => base ++ counted n

theorem not_stops_withinReach :
    ¬ Stops .fails (withinReach .fails "f") (Keywords.escape .generic .empty) "f" ∧
      ¬ Stops .wraps (withinReach .wraps "f") (Keywords.escape .generic .empty) "f" := by
  have hmem : ∀ overflow, ∀ n < Overflow.room overflow,
      Keywords.escape .generic .empty ("f" ++ counted n) ∈ withinReach overflow "f" := by
    intro overflow n hn
    rw [Keywords.escape_of_not_contains rfl]
    exact List.mem_map_of_mem (List.mem_range.mpr hn)
  exact ⟨not_stops_of_taken_all (hmem .fails), not_stops_of_taken_all (hmem .wraps)⟩

end Names
end GrammarRecords
