/-
Escaped code points read back in sequence.

The reader goes from left to right and is greedy: an octal escape takes every
octal digit behind its backslash that still fits.  So what is written for one
code point is read alone only if the next text does not begin with an octal
digit (`readCodePoint?_codePointChars`).  No code point is written with one at
its beginning, the digits `0` to `7` included, and therefore the texts of any
code points can be joined: `code_points_read_back`.
-/
import GrammarRecords.Proofs.Literal.Strings

namespace GrammarRecords
namespace Literal

open Text

/-! ## The reader -/

/-- The escapes of target literals; that of the single quote is for characters. -/
def escapedCodePoint? (c : Char) : Option Nat :=
  if c = '\'' then some 0x27 else (sharedEscape? c).map Char.toNat

def octalDigit? (c : Char) : Option Nat :=
  if '0' ≤ c ∧ c ≤ '7' then some (c.toNat - '0'.toNat) else none

/-- Takes octal digits as long as there are, for at most so many digits and up to `0377`. -/
def readOctal : (digits value : Nat) → List Char → Nat × List Char
  | digits + 1, value, c :: rest =>
      match octalDigit? c with
      | some d =>
          if 8 * value + d ≤ 0o377 then readOctal digits (8 * value + d) rest
          else (value, c :: rest)
      | none => (value, c :: rest)
  | _, value, rest => (value, rest)

def readHex4? : List Char → Option (Nat × List Char)
  | a :: b :: c :: d :: rest => do
      let a ← hexValue? a
      let b ← hexValue? b
      let c ← hexValue? c
      let d ← hexValue? d
      return (4096 * a + 256 * b + 16 * c + d, rest)
  | _ => none

/-- The code point at the beginning, and what is behind it. -/
def readCodePoint? : List Char → Option (Nat × List Char)
  | [] => none
  | '\\' :: c :: rest =>
      match escapedCodePoint? c with
      | some value => some (value, rest)
      | none =>
          if c = 'u' then readHex4? rest
          else if (octalDigit? c).isSome then some (readOctal 3 0 (c :: rest))
          else none
  | c :: rest => if c = '\\' then none else some (c.toNat, rest)

theorem length_readOctal_le (digits value : Nat) (cs : List Char) :
    (readOctal digits value cs).2.length ≤ cs.length := by
  fun_induction readOctal digits value cs with
  | case1 digits value c rest d hd hfits ih =>
      rw [List.length_cons]
      omega
  | case2 => exact Nat.le_refl _
  | case3 => exact Nat.le_refl _
  | case4 => exact Nat.le_refl _

theorem length_of_readHex4? {cs rest : List Char} {value : Nat}
    (h : readHex4? cs = some (value, rest)) : rest.length < cs.length := by
  unfold readHex4? at h
  split at h
  · simp only [Option.bind_eq_bind, Option.bind_eq_some_iff, Option.pure_def, Option.some.injEq,
      Prod.mk.injEq] at h
    obtain ⟨_, -, _, -, _, -, _, -, -, rfl⟩ := h
    simp only [List.length_cons]
    omega
  · cases h

theorem length_of_readCodePoint? {cs rest : List Char} {value : Nat}
    (h : readCodePoint? cs = some (value, rest)) : rest.length < cs.length := by
  unfold readCodePoint? at h
  split at h
  · cases h
  · rename_i c tail
    split at h
    · cases h
      simp only [List.length_cons]
      omega
    · split at h
      · have hlt := length_of_readHex4? h
        simp only [List.length_cons]
        omega
      · split at h
        · have hle := length_readOctal_le 3 0 (c :: tail)
          rw [Option.some.inj h] at hle
          simp only [List.length_cons] at hle ⊢
          omega
        · cases h
  · split at h
    · cases h
    · cases h
      exact Nat.lt_succ_self _

/-- All code points from left to right; none if some text is no code point. -/
def readCodePoints? (cs : List Char) : Option (List Nat) :=
  if cs = [] then some []
  else
    match _h : readCodePoint? cs with
    | none => none
    | some (value, rest) => (readCodePoints? rest).map (value :: ·)
termination_by cs.length
decreasing_by exact length_of_readCodePoint? _h

theorem readCodePoints?_nil : readCodePoints? [] = some [] := by
  rw [readCodePoints?, if_pos rfl]

theorem readCodePoints?_step {cs rest : List Char} {value : Nat}
    (h : readCodePoint? cs = some (value, rest)) :
    readCodePoints? cs = (readCodePoints? rest).map (value :: ·) := by
  have hne : cs ≠ [] := by
    rintro rfl
    cases h
  rw [readCodePoints?, if_neg hne]
  split
  · rename_i hnone
    rw [h] at hnone
    cases hnone
  · rename_i value' rest' hsome
    rw [h] at hsome
    cases hsome
    rfl

/-! ## Octal digits -/

theorem octalDigit?_eq_some {c : Char} {d : Nat} (h : octalDigit? c = some d) :
    d = c.toNat - '0'.toNat := by
  unfold octalDigit? at h
  split at h
  · exact (Option.some.inj h).symm
  · cases h

theorem octalDigit?_digitChar {n : Nat} (h : n < 8) : octalDigit? n.digitChar = some n := by
  have hall : ∀ n < 8, octalDigit? n.digitChar = some n := by decide
  exact hall n h

theorem mem_octalChars {n : Nat} {c : Char} (h : c ∈ octalChars n) :
    ∃ d, d < 8 ∧ c = d.digitChar := by
  induction n using Nat.strongRecOn with
  | ind n ih =>
      unfold octalChars at h ih
      rw [Nat.toDigits_eq_if (by decide)] at h
      split at h
      · rename_i hlt
        exact ⟨n, hlt, List.mem_singleton.mp h⟩
      · rcases List.mem_append.mp h with hfront | hlast
        · exact ih (n / 8) (by omega) hfront
        · exact ⟨n % 8, Nat.mod_lt n (by decide), List.mem_singleton.mp hlast⟩

theorem le_ofDigitChars (cs : List Char) (value : Nat) : value ≤ Nat.ofDigitChars 8 cs value := by
  induction cs generalizing value with
  | nil => exact Nat.le_refl value
  | cons c cs ih =>
      have hstep := ih (8 * value + (c.toNat - '0'.toNat))
      show value ≤ Nat.ofDigitChars 8 cs (8 * value + (c.toNat - '0'.toNat))
      omega

/-- The text goes on with something else than an octal digit. -/
def EndsOctal (rest : List Char) : Prop :=
  ∀ c tail, rest = c :: tail → octalDigit? c = none

theorem readOctal_of_endsOctal {rest : List Char} (h : EndsOctal rest) (digits value : Nat) :
    readOctal digits value rest = (value, rest) := by
  unfold readOctal
  split
  · rename_i c tail
    rw [h c tail rfl]
  · rfl

/-- Digits with room for them are all taken. -/
theorem readOctal_append {cs rest : List Char} (hrest : EndsOctal rest) {digits value : Nat}
    (hoctal : ∀ c ∈ cs, (octalDigit? c).isSome = true) (hlength : cs.length ≤ digits)
    (hvalue : Nat.ofDigitChars 8 cs value ≤ 0o377) :
    readOctal digits value (cs ++ rest) = (Nat.ofDigitChars 8 cs value, rest) := by
  induction cs generalizing digits value with
  | nil => exact readOctal_of_endsOctal hrest digits value
  | cons c cs ih =>
      obtain ⟨digits, rfl⟩ : ∃ k, digits = k + 1 := by
        rw [List.length_cons] at hlength
        exact ⟨digits - 1, by omega⟩
      obtain ⟨d, hd⟩ := Option.isSome_iff_exists.mp (hoctal c List.mem_cons_self)
      have hstep : Nat.ofDigitChars 8 (c :: cs) value = Nat.ofDigitChars 8 cs (8 * value + d) := by
        rw [octalDigit?_eq_some hd]
        rfl
      rw [hstep] at hvalue ⊢
      have hfits : 8 * value + d ≤ 0o377 := Nat.le_trans (le_ofDigitChars cs _) hvalue
      rw [List.cons_append, readOctal, hd]
      simp only [if_pos hfits]
      exact ih (fun x hx => hoctal x (List.mem_cons_of_mem c hx))
        (Nat.le_of_succ_le_succ hlength) hvalue

theorem readOctal_octalChars {n : Nat} (h : n ≤ 0o377) {rest : List Char}
    (hrest : EndsOctal rest) : readOctal 3 0 (octalChars n ++ rest) = (n, rest) := by
  have hvalue : Nat.ofDigitChars 8 (octalChars n) 0 = n :=
    Nat.ofDigitChars_toDigits (by decide) (by decide)
  have hlength : (octalChars n).length ≤ 3 :=
    (Nat.length_toDigits_le_iff (by decide) (by decide)).mpr (by omega)
  have hoctal : ∀ c ∈ octalChars n, (octalDigit? c).isSome = true := by
    intro c hc
    obtain ⟨d, hd, rfl⟩ := mem_octalChars hc
    rw [octalDigit?_digitChar hd]
    rfl
  have hbound : Nat.ofDigitChars 8 (octalChars n) 0 ≤ 0o377 := by omega
  rw [readOctal_append hrest hoctal hlength hbound, hvalue]

/-! ## Hexadecimal digits -/

theorem hexValue?_hexDigit {n : Nat} (h : n < 16) : hexValue? (hexDigit n) = some n := by
  have hall : ∀ n < 16, hexValue? (hexDigit n) = some n := by decide
  exact hall n h

theorem readHex4?_hex4 {n : Nat} (h : n ≤ 0xffff) (rest : List Char) :
    readHex4? (hex4 n ++ rest) = some (n, rest) := by
  have hdigit : ∀ k, hexValue? (hexDigit (k % 16)) = some (k % 16) :=
    fun k => hexValue?_hexDigit (Nat.mod_lt k (by decide))
  have hsum : 4096 * (n / 4096 % 16) + 256 * (n / 256 % 16) + 16 * (n / 16 % 16) + n % 16 = n := by
    omega
  unfold hex4
  simp only [List.cons_append, List.nil_append, readHex4?, hdigit, Option.bind_eq_bind,
    Option.bind_some, Option.pure_def, hsum]

/-! ## One code point -/

theorem escapedCodePoint?_of_namedEscape? {value : Nat} {c : Char}
    (h : namedEscape? value = some c) : escapedCodePoint? c = some value := by
  unfold namedEscape? at h
  split_ifs at h <;> cases h <;> subst_vars <;> rfl

theorem isPlain_iff {value : Nat} :
    isPlain value = true ↔
      0x20 ≤ value ∧ value < 0x7f ∧ ¬ (0x30 ≤ value ∧ value < 0x38) := by
  simp only [isPlain, Bool.and_eq_true, decide_eq_true_eq, Bool.not_eq_true', Bool.and_eq_false_iff,
    decide_eq_false_iff_not]
  omega

theorem toNat_ofNat_plain {value : Nat} (h : isPlain value = true) :
    (Char.ofNat value).toNat = value := by
  obtain ⟨-, hlt, -⟩ := isPlain_iff.mp h
  have hvalid : value.isValidChar := Or.inl (by omega)
  unfold Char.ofNat
  rw [dif_pos hvalid]
  rfl

theorem readCodePoint?_plain {value : Nat} (hnamed : namedEscape? value = none)
    (hplain : isPlain value = true) (rest : List Char) :
    readCodePoint? (Char.ofNat value :: rest) = some (value, rest) := by
  have hslash : Char.ofNat value ≠ '\\' := by
    intro he
    have hvalue : value = 0x5c := by
      rw [← toNat_ofNat_plain hplain, he]
      rfl
    subst hvalue
    exact absurd hnamed (by decide)
  rw [readCodePoint?, if_neg hslash, toNat_ofNat_plain hplain]
  rintro d tail he
  exact absurd he hslash

/-- A digit behind a backslash begins an octal escape and nothing else. -/
theorem readCodePoint?_digit {d : Nat} (hd : d < 8) (rest : List Char) :
    readCodePoint? ('\\' :: d.digitChar :: rest) = some (readOctal 3 0 (d.digitChar :: rest)) := by
  have hescape : ∀ d < 8, escapedCodePoint? d.digitChar = none ∧ d.digitChar ≠ 'u' := by decide
  obtain ⟨hnone, hu⟩ := hescape d hd
  rw [readCodePoint?, hnone]
  simp only [if_neg hu, octalDigit?_digitChar hd, Option.isSome_some, if_true]

theorem readCodePoint?_octalChars {value : Nat} (h : value ≤ 0o377) {rest : List Char}
    (hrest : EndsOctal rest) :
    readCodePoint? ('\\' :: (octalChars value ++ rest)) = some (value, rest) := by
  have hread := readOctal_octalChars h hrest
  have hne : octalChars value ≠ [] := Nat.toDigits_ne_nil
  obtain ⟨c, cs, hcs⟩ := List.exists_cons_of_ne_nil hne
  have hc : c ∈ octalChars value := by
    rw [hcs]
    exact List.mem_cons_self
  obtain ⟨d, hd, rfl⟩ := mem_octalChars hc
  rw [hcs, List.cons_append] at hread ⊢
  rw [readCodePoint?_digit hd, hread]

/-- A code point is read from its own text alone if no octal digit follows. -/
theorem readCodePoint?_codePointChars {value : Nat} (h : value ≤ 0xffff) {rest : List Char}
    (hrest : EndsOctal rest) :
    readCodePoint? (codePointChars value ++ rest) = some (value, rest) := by
  unfold codePointChars
  cases hnamed : namedEscape? value with
  | some c =>
      show readCodePoint? ('\\' :: c :: rest) = _
      rw [readCodePoint?, escapedCodePoint?_of_namedEscape? hnamed]
  | none =>
      by_cases hplain : isPlain value = true
      · simp only [if_pos hplain]
        exact readCodePoint?_plain hnamed hplain rest
      · simp only [if_neg hplain]
        by_cases hascii : value ≤ 0x7f
        · have hoctal : value ≤ 0o377 := by omega
          rw [if_pos hascii]
          exact readCodePoint?_octalChars hoctal hrest
        · rw [if_neg hascii]
          show readCodePoint? ('\\' :: 'u' :: (hex4 value ++ rest)) = _
          rw [readCodePoint?]
          exact readHex4?_hex4 h rest

/-! ## Sequences of code points -/

theorem octalDigit?_plain {value : Nat} (h : isPlain value = true) :
    octalDigit? (Char.ofNat value) = none := by
  obtain ⟨-, -, hdigit⟩ := isPlain_iff.mp h
  refine if_neg fun hrange => hdigit ?_
  have hlow : '0'.toNat ≤ (Char.ofNat value).toNat := hrange.1
  have hhigh : (Char.ofNat value).toNat ≤ '7'.toNat := hrange.2
  rw [toNat_ofNat_plain h] at hlow hhigh
  exact ⟨hlow, Nat.lt_succ_of_le hhigh⟩

/-- The digits `0` to `7` are written with a backslash, as all escapes are. -/
theorem endsOctal_codePointChars_append (value : Nat) (rest : List Char) :
    EndsOctal (codePointChars value ++ rest) := by
  have hslash : octalDigit? '\\' = none := by decide
  intro c tail he
  unfold codePointChars at he
  split at he
  · rw [← (List.cons.inj he).1]
    exact hslash
  · split at he
    · rename_i hplain
      rw [← (List.cons.inj he).1]
      exact octalDigit?_plain hplain
    · split at he
      · rw [← (List.cons.inj he).1]
        exact hslash
      · rw [← (List.cons.inj he).1]
        exact hslash

theorem endsOctal_flatMap (values : List Nat) : EndsOctal (values.flatMap codePointChars) := by
  cases values with
  | nil =>
      intro c tail he
      cases he
  | cons value values =>
      rw [List.flatMap_cons]
      exact endsOctal_codePointChars_append value _

theorem readCodePoints?_flatMap {values : List Nat} (h : ∀ value ∈ values, value ≤ 0xffff) :
    readCodePoints? (values.flatMap codePointChars) = some values := by
  induction values with
  | nil => exact readCodePoints?_nil
  | cons value values ih =>
      have hstep := readCodePoint?_codePointChars (h value List.mem_cons_self)
        (endsOctal_flatMap values)
      rw [List.flatMap_cons, readCodePoints?_step hstep,
        ih fun v hv => h v (List.mem_cons_of_mem value hv)]
      rfl

theorem ofCodePoint_of_le {value : Nat} (h : value ≤ 0xffff) :
    ofCodePoint value = .ok (String.ofList (codePointChars value)) :=
  if_pos h

/--
Code points up to `0xFFFF`, surrogates among them, all have escapes, and the
escapes written one behind another are read as these code points and no others.
A larger code point is an error that names it.
-/
theorem code_points_read_back (values : List Nat) :
    ((∀ value ∈ values, value ≤ 0xffff) → ∃ texts, values.map ofCodePoint = texts.map .ok ∧
      readCodePoints? (String.join texts).toList = some values) ∧
    (∀ value ∈ values, 0xffff < value → ofCodePoint value = .error (.unencodable value)) := by
  constructor
  · intro h
    refine ⟨values.map fun value => String.ofList (codePointChars value), ?_, ?_⟩
    · rw [List.map_map]
      exact List.map_congr_left fun value hvalue => ofCodePoint_of_le (h value hvalue)
    · have hjoin : (String.join (values.map fun value =>
          String.ofList (codePointChars value))).toList = values.flatMap codePointChars := by
        rw [String.toList_join, List.flatMap_map]
        simp only [String.toList_ofList]
      rw [hjoin, readCodePoints?_flatMap h]
  · intro value _ hlarge
    exact if_neg (by omega)

/--
Escapes that the code point behind them could run into: an octal escape before
a digit, a backslash before `u`, and a surrogate.
-/
theorem code_points_read_back_digits :
    (∀ value ∈ [0, 0x37, 0x38, 0x5c, 0x75, 0xd800, 0x7f], value ≤ 0xffff) ∧
      (∃ texts, [0, 0x37, 0x38, 0x5c, 0x75, 0xd800, 0x7f].map ofCodePoint = texts.map .ok ∧
        readCodePoints? (String.join texts).toList =
          some [0, 0x37, 0x38, 0x5c, 0x75, 0xd800, 0x7f]) ∧
      ofCodePoint 0x1f600 = .error (.unencodable 128512) := by
  have hsmall : ∀ value ∈ [0, 0x37, 0x38, 0x5c, 0x75, 0xd800, 0x7f], value ≤ 0xffff := by decide
  exact ⟨hsmall, (code_points_read_back _).1 hsmall,
    (code_points_read_back [0x1f600]).2 0x1f600 (by decide) (by decide)⟩

end Literal
end GrammarRecords
