/-
Guarded texts read back.

The target replaces Unicode escapes in one pass over a source, `decodeFrom`.  A
backslash begins an escape only if the backslashes right before it are even in
number, so the pass has to carry that number along.  The guard looks at no more
than two characters.  It writes the escape of a backslash for every backslash
before a `u`, and where the run before it is odd the target takes this for text:
the guarded text then is too long by five characters, and nothing that is read
later makes up for it.  `decode_guard_iff` says for all texts that this is the
only thing that can go wrong.
-/
import GrammarRecords.Proofs.Literal.CodePoints

namespace GrammarRecords
namespace Literal

/-! ## The target's pass -/

/-- The character with this code in hexadecimal digits; a surrogate is none. -/
def character? (a b c d : Char) : Option Char :=
  match readHex4? [a, b, c, d] with
  | some (value, _) => if value.isValidChar then some (Char.ofNat value) else none
  | none => none

/--
The text with its escapes replaced.  `slashes` is the number of backslashes right
before it, and what is written for an escape is not read again.
-/
def decodeFrom (slashes : Nat) : List Char → List Char
  | '\\' :: 'u' :: a :: b :: c :: d :: rest =>
      match if Even slashes then character? a b c d else none with
      | some e => e :: decodeFrom 0 rest
      | none => '\\' :: decodeFrom (slashes + 1) ('u' :: a :: b :: c :: d :: rest)
  | c :: rest => c :: decodeFrom (if c = '\\' then slashes + 1 else 0) rest
  | [] => []

def decodeUnicodeEscapes (text : String) : String :=
  String.ofList (decodeFrom 0 text.toList)

example : decodeUnicodeEscapes "\\u0041 \\\\u0041 \\\\\\u0041" = "A \\\\u0041 \\\\A" := by decide

/-- Only a backslash before a `u` can begin an escape. -/
theorem decodeFrom_copy {c : Char} {rest : List Char}
    (h : ¬ (c = '\\' ∧ rest.head? = some 'u')) (slashes : Nat) :
    decodeFrom slashes (c :: rest) =
      c :: decodeFrom (if c = '\\' then slashes + 1 else 0) rest := by
  rw [decodeFrom]
  rintro a b d e rest' rfl rfl
  exact h ⟨rfl, rfl⟩

theorem decodeFrom_plain {c : Char} (h : c ≠ '\\') (slashes : Nat) (rest : List Char) :
    decodeFrom slashes (c :: rest) = c :: decodeFrom 0 rest := by
  rw [decodeFrom_copy (fun hc => h hc.1), if_neg h]

/-- Behind an even run the escape of the backslash is replaced. -/
theorem decodeFrom_guard_of_even {slashes : Nat} (h : Even slashes) (rest : List Char) :
    decodeFrom slashes ('\\' :: 'u' :: '0' :: '0' :: '5' :: 'C' :: 'u' :: rest) =
      '\\' :: 'u' :: decodeFrom 0 rest := by
  have hslash : character? '0' '0' '5' 'C' = some '\\' := by decide
  rw [decodeFrom, if_pos h, hslash]
  show '\\' :: decodeFrom 0 ('u' :: rest) = _
  rw [decodeFrom_plain (by decide)]

/-- Behind an odd run it is text. -/
theorem decodeFrom_guard_of_odd {slashes : Nat} (h : ¬ Even slashes) (rest : List Char) :
    decodeFrom slashes ('\\' :: 'u' :: '0' :: '0' :: '5' :: 'C' :: 'u' :: rest) =
      '\\' :: 'u' :: '0' :: '0' :: '5' :: 'C' :: 'u' :: decodeFrom 0 rest := by
  rw [decodeFrom, if_neg h]
  show '\\' :: decodeFrom (slashes + 1) ('u' :: _) = _
  iterate 6 rw [decodeFrom_plain (by decide)]

/-! ## The guard -/

theorem guardChars_escape (rest : List Char) :
    guardChars ('\\' :: 'u' :: rest) =
      '\\' :: 'u' :: '0' :: '0' :: '5' :: 'C' :: 'u' :: guardChars rest := by
  rw [guardChars, if_pos ⟨rfl, rfl⟩]
  rfl

theorem guardChars_copy {c : Char} {rest : List Char}
    (h : ¬ (c = '\\' ∧ rest.head? = some 'u')) :
    guardChars (c :: rest) = c :: guardChars rest := by
  cases rest with
  | nil => rfl
  | cons d rest =>
      rw [guardChars, if_neg]
      rintro ⟨rfl, rfl⟩
      exact h ⟨rfl, rfl⟩

/-- The guard takes a text apart into backslashes before a `u` and single characters. -/
theorem guardChars_induction {P : List Char → Prop} (nil : P [])
    (escape : ∀ rest, P rest → P ('\\' :: 'u' :: rest))
    (copy : ∀ c rest, ¬ (c = '\\' ∧ rest.head? = some 'u') → P rest → P (c :: rest))
    (cs : List Char) : P cs := by
  fun_induction guardChars cs with
  | case1 => exact nil
  | case2 c => exact copy c [] (by simp) nil
  | case3 c d rest h ih =>
      obtain ⟨rfl, rfl⟩ := h
      exact escape rest ih
  | case4 c d rest h ih =>
      refine copy c (d :: rest) ?_ ih
      rintro ⟨hc, hd⟩
      exact h ⟨hc, Option.some.inj hd⟩

/-- The first character stays, since an escape of a backslash begins with one. -/
theorem head?_guardChars (cs : List Char) : (guardChars cs).head? = cs.head? := by
  cases cs using guardChars_induction with
  | nil => rfl
  | escape rest => rw [guardChars_escape]; rfl
  | copy c rest h => rw [guardChars_copy h]; rfl

/-- A copied character is copied by the target as well. -/
theorem decodeFrom_guardChars_copy {c : Char} {rest : List Char}
    (h : ¬ (c = '\\' ∧ rest.head? = some 'u')) (slashes : Nat) :
    decodeFrom slashes (guardChars (c :: rest)) =
      c :: decodeFrom (if c = '\\' then slashes + 1 else 0) (guardChars rest) := by
  rw [guardChars_copy h]
  refine decodeFrom_copy ?_ slashes
  rw [head?_guardChars]
  exact h

/-- No character is lost, so what is written too much stays too much. -/
theorem length_le_decodeFrom_guardChars (cs : List Char) (slashes : Nat) :
    cs.length ≤ (decodeFrom slashes (guardChars cs)).length := by
  induction cs using guardChars_induction generalizing slashes with
  | nil => exact Nat.zero_le _
  | escape rest ih =>
      have hrest := ih 0
      rw [guardChars_escape]
      by_cases h : Even slashes
      · rw [decodeFrom_guard_of_even h]
        simp only [List.length_cons]
        omega
      · rw [decodeFrom_guard_of_odd h]
        simp only [List.length_cons]
        omega
  | copy c rest h ih =>
      rw [decodeFrom_guardChars_copy h]
      exact Nat.succ_le_succ (ih _)

/-! ## Runs of backslashes -/

theorem trailingBackslashes_concat (front : List Char) (c : Char) :
    trailingBackslashes (front ++ [c]) = if c = '\\' then trailingBackslashes front + 1 else 0 := by
  unfold trailingBackslashes
  rw [List.reverse_concat, List.takeWhile_cons]
  by_cases h : c = '\\'
  · simp [h]
  · simp [h]

/-- Behind `before`, every `\u` of the text has an even number of backslashes in front of it. -/
def EvenBehind (before cs : List Char) : Prop :=
  ∀ front back, cs = front ++ '\\' :: 'u' :: back → Even (trailingBackslashes (before ++ front))

theorem evenBehind_nil (before : List Char) : EvenBehind before [] := by
  intro front back h
  exact absurd h.symm (by simp)

theorem evenBehind_cons (before : List Char) (c : Char) (rest : List Char) :
    EvenBehind before (c :: rest) ↔
      (c = '\\' ∧ rest.head? = some 'u' → Even (trailingBackslashes before)) ∧
        EvenBehind (before ++ [c]) rest := by
  constructor
  · intro heven
    refine ⟨?_, ?_⟩
    · rintro ⟨rfl, hu⟩
      obtain ⟨back, rfl⟩ := List.head?_eq_some_iff.mp hu
      have hself := heven [] back rfl
      rwa [List.append_nil] at hself
    · intro front back he
      rw [List.append_assoc]
      exact heven (c :: front) back (congrArg (c :: ·) he)
  · rintro ⟨hself, hrest⟩ front back he
    cases front with
    | nil =>
        obtain ⟨rfl, rfl⟩ := List.cons.inj he
        rw [List.append_nil]
        exact hself ⟨rfl, rfl⟩
    | cons x front =>
        obtain ⟨rfl, htail⟩ := List.cons.inj he
        have hbehind := hrest front back htail
        rwa [List.append_assoc] at hbehind

/-! ## Reading a guarded text -/

/-- What stands before counts for the target by the backslashes at its end only. -/
theorem decodeFrom_guardChars_iff (before cs : List Char) :
    decodeFrom (trailingBackslashes before) (guardChars cs) = cs ↔ EvenBehind before cs := by
  induction cs using guardChars_induction generalizing before with
  | nil => exact iff_of_true (by rw [guardChars, decodeFrom]) (evenBehind_nil before)
  | escape rest ih =>
      have hrest := ih (before ++ ['\\'] ++ ['u'])
      rw [trailingBackslashes_concat, if_neg (by decide)] at hrest
      rw [guardChars_escape, evenBehind_cons, evenBehind_cons, ← hrest]
      by_cases h : Even (trailingBackslashes before)
      · rw [decodeFrom_guard_of_even h, List.cons_inj_right, List.cons_inj_right]
        simp [h]
      · have hlength := length_le_decodeFrom_guardChars rest 0
        rw [decodeFrom_guard_of_odd h]
        refine iff_of_false ?_ (fun heven => h (heven.1 ⟨rfl, rfl⟩))
        intro he
        have hlong := congrArg List.length he
        simp only [List.length_cons] at hlong
        omega
  | copy c rest h ih =>
      rw [decodeFrom_guardChars_copy h, evenBehind_cons, ← ih, trailingBackslashes_concat,
        List.cons_inj_right]
      exact (and_iff_right fun hc => absurd hc h).symm

/--
The target reads a guarded text as the text itself exactly if every backslash
before a `u` in it could begin an escape, the number of backslashes right before
it being even.
-/
theorem decode_guard_iff (text : String) :
    decodeUnicodeEscapes (guardUnicodeEscapes text) = text ↔
      ∀ front back, text.toList = front ++ '\\' :: 'u' :: back →
        Even (trailingBackslashes front) := by
  have hchars := decodeFrom_guardChars_iff [] text.toList
  unfold decodeUnicodeEscapes guardUnicodeEscapes
  rw [String.toList_ofList, ← String.toList_inj, String.toList_ofList]
  exact hchars

/-- A doubled backslash is text for the target, and the guard spoils it. -/
theorem not_decode_guard_doubled :
    decodeUnicodeEscapes (guardUnicodeEscapes "\\\\u0041") ≠ "\\\\u0041" := by
  decide

end Literal
end GrammarRecords
