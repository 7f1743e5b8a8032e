/-
Case conversion before numeric suffixes.

Digits have no case and divide no words, so a name may be converted before or
after a suffix is put behind it.  A converted name with a suffix is therefore
the conversion of some name, namely of the one with this suffix.

Letters only change into letters.  So a character that is no letter is in a
converted name only if it was in the name, but for the underscores of snake case.
-/
import GrammarRecords.Proofs.Names.Search
import GrammarRecords.Text.Case

namespace GrammarRecords
namespace Text

theorem val_le_of_isDigit {c : Char} (h : c.isDigit = true) : c.val ≤ '9'.val :=
  of_decide_eq_true (Bool.and_eq_true_iff.mp h).2

theorem isUpper_of_isDigit {c : Char} (h : c.isDigit = true) : c.isUpper = false := by
  refine decide_eq_false fun hupper => ?_
  have hletter : 'A'.val ≤ '9'.val := UInt32.le_trans hupper.1 (val_le_of_isDigit h)
  exact absurd hletter (by decide)

theorem isLower_of_isDigit {c : Char} (h : c.isDigit = true) : c.isLower = false := by
  refine Bool.eq_false_iff.mpr fun hlower => ?_
  have hfirst : 'a'.val ≤ c.val := of_decide_eq_true (Bool.and_eq_true_iff.mp hlower).1
  have hletter : 'a'.val ≤ '9'.val := UInt32.le_trans hfirst (val_le_of_isDigit h)
  exact absurd hletter (by decide)

theorem isAlpha_of_isDigit {c : Char} (h : c.isDigit = true) : c.isAlpha = false :=
  Bool.or_eq_false_iff.mpr ⟨isUpper_of_isDigit h, isLower_of_isDigit h⟩

theorem isSeparator_of_isAlphanum {c : Char} (h : c.isAlphanum = true) :
    isSeparator c = false := by
  have hne : ∀ x : Char, x.isAlphanum = false → c ≠ x := by
    rintro x hx rfl
    exact absurd h (by rw [hx]; decide)
  simp [isSeparator, hne '_' (by decide), hne '-' (by decide), hne '.' (by decide)]

theorem isSeparator_of_isDigit {c : Char} (h : c.isDigit = true) : isSeparator c = false :=
  isSeparator_of_isAlphanum (Bool.or_eq_true_iff.mpr (Or.inr h))

theorem isSeparator_of_isAlpha {c : Char} (h : c.isAlpha = true) : isSeparator c = false :=
  isSeparator_of_isAlphanum (Bool.or_eq_true_iff.mpr (Or.inl h))

theorem toUpper_of_not_isLower {c : Char} (h : c.isLower = false) : c.toUpper = c := by
  refine dif_neg fun hrange => ?_
  have hlower : c.isLower = true :=
    Bool.and_eq_true_iff.mpr ⟨decide_eq_true hrange.1, decide_eq_true hrange.2⟩
  rw [h] at hlower
  exact Bool.noConfusion hlower

theorem toLower_of_not_isUpper {c : Char} (h : c.isUpper = false) : c.toLower = c := by
  refine dif_neg fun hrange => ?_
  have hupper : c.isUpper = true := decide_eq_true hrange
  rw [h] at hupper
  exact Bool.noConfusion hupper

theorem toUpper_of_isDigit {c : Char} (h : c.isDigit = true) : c.toUpper = c :=
  toUpper_of_not_isLower (isLower_of_isDigit h)

theorem toLower_of_isDigit {c : Char} (h : c.isDigit = true) : c.toLower = c :=
  toLower_of_not_isUpper (isUpper_of_isDigit h)

section

variable {digits : List Char} (hdigits : ∀ c ∈ digits, c.isDigit = true)

include hdigits

/-! ## Pascal case -/

theorem hasHumps_append_digits (cs : List Char) : hasHumps (cs ++ digits) = hasHumps cs := by
  have hseparator : digits.any isSeparator = false :=
    List.any_eq_false.mpr fun c hc => by simp [isSeparator_of_isDigit (hdigits c hc)]
  have hlower : digits.any Char.isLower = false :=
    List.any_eq_false.mpr fun c hc => by simp [isLower_of_isDigit (hdigits c hc)]
  have hupper : digits.any Char.isUpper = false :=
    List.any_eq_false.mpr fun c hc => by simp [isUpper_of_isDigit (hdigits c hc)]
  simp only [hasHumps, List.any_append, hseparator, hlower, hupper, Bool.or_false]

theorem joinWords_digits (atStart : Bool) : joinWords atStart digits = digits := by
  induction digits generalizing atStart with
  | nil => rfl
  | cons c cs ih =>
      have hc : c.isDigit = true := hdigits c List.mem_cons_self
      have hrest := ih (fun x hx => hdigits x (List.mem_cons_of_mem c hx)) false
      rw [joinWords, isSeparator_of_isDigit hc, toUpper_of_isDigit hc, toLower_of_isDigit hc,
        hrest, ite_self]
      rfl

theorem joinWords_append_digits (atStart : Bool) (cs : List Char) :
    joinWords atStart (cs ++ digits) = joinWords atStart cs ++ digits := by
  induction cs generalizing atStart with
  | nil => exact joinWords_digits hdigits atStart
  | cons c cs ih =>
      rw [List.cons_append, joinWords, joinWords]
      split
      · exact ih true
      · rw [ih false, List.cons_append]

theorem pascalChars_append_digits (cs : List Char) :
    pascalChars (cs ++ digits) = pascalChars cs ++ digits := by
  unfold pascalChars
  rw [hasHumps_append_digits hdigits]
  split
  · rename_i hhumps
    cases cs with
    | nil => exact absurd hhumps (by decide)
    | cons c cs => rfl
  · exact joinWords_append_digits hdigits true cs

/-! ## Snake case -/

/-- At the end of a name there is no lower-case letter to come, with or without digits. -/
theorem opensWord_append_digits (before : Option Char) (cs : List Char) :
    opensWord before (cs ++ digits).head? = opensWord before cs.head? := by
  cases cs with
  | nil =>
      cases digits with
      | nil => rfl
      | cons d ds =>
          have hd : d.isLower = false := isLower_of_isDigit (hdigits d List.mem_cons_self)
          simp [opensWord, hd]
  | cons c cs => rfl

theorem snakeFrom_digits (before : Option Char) (underscored : Bool) :
    snakeFrom before underscored digits = digits := by
  induction digits generalizing before underscored with
  | nil => rfl
  | cons c cs ih =>
      have hc : c.isDigit = true := hdigits c List.mem_cons_self
      have hseparator := isSeparator_of_isDigit hc
      simp only [isSeparator, Bool.or_eq_false_iff] at hseparator
      have hrest := ih (fun x hx => hdigits x (List.mem_cons_of_mem c hx)) (some c) (c == '_')
      rw [snakeFrom, hseparator.1.2, hseparator.2, isUpper_of_isDigit hc, hrest]
      rfl

theorem snakeFrom_append_digits (before : Option Char) (underscored : Bool) (cs : List Char) :
    snakeFrom before underscored (cs ++ digits) = snakeFrom before underscored cs ++ digits := by
  induction cs generalizing before underscored with
  | nil => exact snakeFrom_digits hdigits before underscored
  | cons c cs ih =>
      rw [List.cons_append, snakeFrom, snakeFrom, opensWord_append_digits hdigits]
      split_ifs <;> rw [ih] <;> rfl

end

/-! ## Letters -/

theorem isAlpha_toUpper (c : Char) : c.toUpper.isAlpha = c.isAlpha := by
  delta Char.isAlpha Char.isUpper Char.isLower Char.toUpper
  split <;> grind [UInt32.toNat_add]

theorem isAlpha_toLower (c : Char) : c.toLower.isAlpha = c.isAlpha := by
  delta Char.isAlpha Char.isUpper Char.isLower Char.toLower
  split <;> grind [UInt32.toNat_add]

theorem isLower_toUpper (c : Char) : c.toUpper.isLower = false := by
  delta Char.isLower Char.toUpper
  split <;> grind [UInt32.toNat_add]

theorem isUpper_toLower (c : Char) : c.toLower.isUpper = false := by
  delta Char.isUpper Char.toLower
  split <;> grind [UInt32.toNat_add]

theorem isLower_toLower (c : Char) : c.toLower.isLower = c.isAlpha := by
  have halpha : (c.toLower.isUpper || c.toLower.isLower) = c.isAlpha := isAlpha_toLower c
  rwa [isUpper_toLower, Bool.false_or] at halpha

theorem toLower_toLower (c : Char) : c.toLower.toLower = c.toLower :=
  toLower_of_not_isUpper (isUpper_toLower c)

theorem toLower_toUpper (c : Char) : c.toUpper.toLower = c.toLower := by
  apply Char.ext
  delta Char.toLower Char.toUpper
  split <;> split <;> grind [UInt32.toNat_add]

/-! ## Characters that are no letters -/

section

variable {x : Char} (hx : x.isAlpha = false)

include hx

theorem toUpper_ne {c : Char} (hc : c ≠ x) : c.toUpper ≠ x := by
  rintro rfl
  rw [isAlpha_toUpper] at hx
  have hlower : c.isLower = false := (Bool.or_eq_false_iff.mp hx).2
  exact hc (toUpper_of_not_isLower hlower).symm

theorem toLower_ne {c : Char} (hc : c ≠ x) : c.toLower ≠ x := by
  rintro rfl
  rw [isAlpha_toLower] at hx
  have hupper : c.isUpper = false := (Bool.or_eq_false_iff.mp hx).1
  exact hc (toLower_of_not_isUpper hupper).symm

theorem not_mem_joinWords (atStart : Bool) {cs : List Char} (h : x ∉ cs) :
    x ∉ joinWords atStart cs := by
  induction cs generalizing atStart with
  | nil => exact h
  | cons c cs ih =>
      rw [List.mem_cons, not_or] at h
      rw [joinWords]
      split
      · exact ih true h.2
      · rw [List.mem_cons, not_or]
        refine ⟨?_, ih false h.2⟩
        cases atStart with
        | true => exact Ne.symm (toUpper_ne hx (Ne.symm h.1))
        | false => exact Ne.symm (toLower_ne hx (Ne.symm h.1))

theorem not_mem_pascalCase {s : String} (h : x ∉ s.toList) : x ∉ (pascalCase s).toList := by
  rw [pascalCase, String.toList_ofList]
  unfold pascalChars
  split
  · cases hs : s.toList with
    | nil => exact List.not_mem_nil
    | cons c cs =>
        rw [hs, List.mem_cons, not_or] at h
        rw [capitalize, List.mem_cons, not_or]
        exact ⟨Ne.symm (toUpper_ne hx (Ne.symm h.1)), h.2⟩
  · exact not_mem_joinWords hx true h

theorem not_mem_snakeFrom (hline : x ≠ '_') {cs : List Char} (h : x ∉ cs)
    (before : Option Char) (underscored : Bool) : x ∉ snakeFrom before underscored cs := by
  induction cs generalizing before underscored with
  | nil => exact h
  | cons c cs ih =>
      rw [List.mem_cons, not_or] at h
      have hlower : x ≠ c.toLower := Ne.symm (toLower_ne hx (Ne.symm h.1))
      rw [snakeFrom]
      split_ifs
      · exact ih h.2 _ _
      · exact List.not_mem_cons_of_ne_of_not_mem hline (ih h.2 _ _)
      · exact List.not_mem_cons_of_ne_of_not_mem h.1 (ih h.2 _ _)
      · exact List.not_mem_cons_of_ne_of_not_mem hline
          (List.not_mem_cons_of_ne_of_not_mem hlower (ih h.2 _ _))
      · exact List.not_mem_cons_of_ne_of_not_mem hlower (ih h.2 _ _)

theorem not_mem_snakeCase (hline : x ≠ '_') {s : String} (h : x ∉ s.toList) :
    x ∉ (snakeCase s).toList := by
  rw [snakeCase, String.toList_ofList]
  exact not_mem_snakeFrom hx hline h none false

end

/-! ## Numbered names -/

open Names

theorem pascalCase_numbered (s : String) (n : Nat) :
    pascalCase (numbered s n) = numbered (pascalCase s) n := by
  rw [numbered_eq, numbered_eq, pascalCase, String.toList_append,
    pascalChars_append_digits fun _ hc => isDigit_of_mem_suffix hc, String.ofList_append,
    String.ofList_toList]
  rfl

theorem snakeCase_numbered (s : String) (n : Nat) :
    snakeCase (numbered s n) = numbered (snakeCase s) n := by
  rw [numbered_eq, numbered_eq, snakeCase, snakeChars, String.toList_append,
    snakeFrom_append_digits fun _ hc => isDigit_of_mem_suffix hc, String.ofList_append,
    String.ofList_toList]
  rfl

end Text
end GrammarRecords
