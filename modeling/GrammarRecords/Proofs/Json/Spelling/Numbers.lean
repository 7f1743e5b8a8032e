/-
Texts of numbers.

A numeral is a whole part, perhaps a fraction and perhaps an exponent.  What it
stands for is told by `Numeral.number?`, for which the text does not matter any
more; a numeral out of range stands for no number.  A reader finds the end of a
numeral where no character follows that could continue it (`Ends`).  The reader
that only looks for the end takes the same texts, in range or not.
-/
import GrammarRecords.Json.NumberReader
import GrammarRecords.Proofs.Json.Spelling.Basic
import GrammarRecords.Proofs.Outcome
import Mathlib.Tactic.SplitIfs

namespace GrammarRecords
namespace Json

/-! ## Texts -/

structure Numeral where
  whole : List Nat
  fraction : Option (List Nat)
  /-- Whether there is a minus, and the digits. -/
  exponent : Option (Bool × List Nat)

def DigitsText (ds : List Nat) (cs : List Char) : Prop :=
  (∀ d ∈ cs, d.isDigit = true) ∧ ds = cs.map fun d => d.toNat - '0'.toNat

inductive WholeText : List Nat → List Char → Prop
  | zero : WholeText [0] ['0']
  | digits {ds : List Nat} {d : Char} {cs : List Char} (hd : d ≠ '0')
      (h : DigitsText ds (d :: cs)) : WholeText ds (d :: cs)

inductive FractionText : Option (List Nat) → List Char → Prop
  | absent : FractionText none []
  | present {ds : List Nat} {cs : List Char} (h : DigitsText ds cs) (hne : cs ≠ []) :
      FractionText (some ds) ('.' :: cs)

inductive SignText : Bool → List Char → Prop
  | absent : SignText false []
  | plus : SignText false ['+']
  | minus : SignText true ['-']

inductive ExponentText : Option (Bool × List Nat) → List Char → Prop
  | absent : ExponentText none []
  | present {negative : Bool} {ds : List Nat} {e : Char} {sign cs : List Char}
      (he : e = 'e' ∨ e = 'E') (hsign : SignText negative sign) (h : DigitsText ds cs)
      (hne : cs ≠ []) : ExponentText (some (negative, ds)) (e :: (sign ++ cs))

inductive NumeralText : Numeral → List Char → Prop
  | mk {x : Numeral} {whole fraction exponent : List Char} (hwhole : WholeText x.whole whole)
      (hfraction : FractionText x.fraction fraction)
      (hexponent : ExponentText x.exponent exponent) :
      NumeralText x (whole ++ (fraction ++ exponent))

/-- A numeral, behind a minus if there is one. -/
inductive SignedText : Bool → Numeral → List Char → Prop
  | plain {x : Numeral} {cs : List Char} (h : NumeralText x cs) : SignedText false x cs
  | minus {x : Numeral} {cs : List Char} (h : NumeralText x cs) : SignedText true x ('-' :: cs)

/-! ## What a numeral stands for -/

def scaled? (sign : Bool) (significand : Nat) (exponent : Int) : Option Number :=
  (Decimal.Binary64.ofScientific significand exponent).map (.float sign)

/-- With an exponent of its own; the digits of one that does not fit count for nothing. -/
def scaledBy? (sign : Bool) (significand : Nat) (exponent : Int) (negative : Bool)
    (ds : List Nat) : Option Number :=
  match gatherDigits exponentBound 0 ds with
  | (e, []) =>
      scaled? sign significand (if negative then exponent - (e : Int) else exponent + (e : Int))
  | _ => if significand ≠ 0 ∧ !negative then none else some (.float sign .zero)

def integer? (sign : Bool) (n : Nat) : Option Number :=
  if !sign then some (.natural n)
  else if n = 0 ∨ Nat.pow 2 63 < n then scaled? true n 0
  else some (.negative n)

namespace Numeral

/-- The digits before and behind the point that fit, and the power of ten that they lack. -/
def significand (x : Numeral) : Nat × Int :=
  let (significand, excess) := gatherDigits significandBound 0 x.whole
  let fraction := x.fraction.getD []
  let (significand, dropped) := gatherDigits significandBound significand fraction
  (significand, (excess.length : Int) - (fraction.length - dropped.length : Nat))

def number? (sign : Bool) (x : Numeral) : Option Number :=
  let (significand, exponent) := x.significand
  match x.exponent with
  | some (negative, ds) => scaledBy? sign significand exponent negative ds
  | none =>
      if x.fraction.isSome ∨ (gatherDigits significandBound 0 x.whole).2 ≠ [] then
        scaled? sign significand exponent
      else integer? sign significand

end Numeral

/-! ## Reading -/

theorem finds_scaled (sign : Bool) (significand : Nat) (exponent : Int) (rest : List Char)
    (p : Position) :
    Finds (scaled sign significand exponent ⟨rest, p⟩) (scaled? sign significand exponent)
      rest := by
  unfold scaled scaled?
  cases Decimal.Binary64.ofScientific significand exponent with
  | none => exact Finds.error _ _
  | some x => exact Finds.ok _ _ _

theorem scaled?_of_scaled (sign : Bool) (significand : Nat) (exponent : Int) (c : Cursor) :
    Yields (scaled sign significand exponent c) fun p =>
      scaled? sign significand exponent = some p.1 ∧ p.2 = c := by
  unfold scaled scaled?
  cases Decimal.Binary64.ofScientific significand exponent with
  | none => exact .error _
  | some x => exact .ok ⟨rfl, rfl⟩

theorem finds_integer (sign : Bool) (n : Nat) (rest : List Char) (p : Position) :
    Finds (integer sign n ⟨rest, p⟩) (integer? sign n) rest := by
  unfold integer integer?
  split_ifs
  · exact Finds.ok _ _ _
  · exact finds_scaled true n 0 rest p
  · exact Finds.ok _ _ _

theorem integer?_of_integer (sign : Bool) (n : Nat) (c : Cursor) :
    Yields (integer sign n c) fun p => integer? sign n = some p.1 ∧ p.2 = c := by
  unfold integer integer?
  split_ifs
  · exact .ok ⟨rfl, rfl⟩
  · exact scaled?_of_scaled true n 0 c
  · exact .ok ⟨rfl, rfl⟩

/-- No digit comes next. -/
def NoDigit (rest : List Char) : Prop := ∀ d, rest.head? = some d → d.isDigit = false

theorem readDigits_append {ds : List Nat} {cs rest : List Char} (h : DigitsText ds cs)
    (hrest : NoDigit rest) (p : Position) :
    ∃ q, readDigits ⟨cs ++ rest, p⟩ = (ds, ⟨rest, q⟩) := by
  have hnone : rest.takeWhile Char.isDigit = [] ∧ rest.dropWhile Char.isDigit = rest := by
    cases rest with
    | nil => exact ⟨rfl, rfl⟩
    | cons d rest =>
        have hd : ¬ d.isDigit = true := by simp [hrest d rfl]
        exact ⟨List.takeWhile_cons_of_neg hd, List.dropWhile_cons_of_neg hd⟩
  refine ⟨((cs ++ rest).takeWhile Char.isDigit).foldl Position.after p, ?_⟩
  unfold readDigits Cursor.skipWhile
  simp only
  rw [List.takeWhile_append_of_pos h.1, List.dropWhile_append_of_pos h.1, hnone.1, hnone.2,
    List.append_nil, h.2]

theorem digitsText_readDigits (c : Cursor) :
    ∃ cs, DigitsText (readDigits c).1 cs ∧ c.rest = cs ++ (readDigits c).2.rest := by
  refine ⟨c.rest.takeWhile Char.isDigit, ⟨fun d hd => List.mem_takeWhile_imp hd, rfl⟩, ?_⟩
  exact (List.takeWhile_append_dropWhile).symm

theorem DigitsText.eq_nil_iff {ds : List Nat} {cs : List Char} (h : DigitsText ds cs) :
    ds = [] ↔ cs = [] := by
  rw [h.2, List.map_eq_nil_iff]

theorem readDigits_ne_nil {c : Cursor} {d : Char} {ds : List Char} (hrest : c.rest = d :: ds)
    (hd : d.isDigit = true) : (readDigits c).1 ≠ [] := by
  unfold readDigits
  rw [hrest, List.takeWhile_cons_of_pos hd]
  exact List.cons_ne_nil _ _

/-- What stands behind a part of a numeral does not continue its digits. -/
theorem ExponentText.noDigit {x : Option (Bool × List Nat)} {cs rest : List Char}
    (h : ExponentText x cs) (hrest : Ends rest) :
    NoDigit (cs ++ rest) ∧ (cs ++ rest).head? ≠ some '.' := by
  cases h with
  | absent =>
      refine ⟨fun d hd => (hrest d hd).1, fun hd => ?_⟩
      exact (hrest '.' hd).2.1 rfl
  | present he hsign h hne =>
      rw [List.cons_append, NoDigit, List.head?_cons]
      rcases he with rfl | rfl <;> exact ⟨fun d hd => Option.some.inj hd ▸ rfl, by decide⟩

theorem FractionText.noDigit {x : Option (List Nat)} {cs rest : List Char} (h : FractionText x cs)
    (hrest : NoDigit rest) : NoDigit (cs ++ rest) := by
  cases h with
  | absent => exact hrest
  | present h hne =>
      rintro d hd
      rw [List.cons_append, List.head?_cons, Option.some.injEq] at hd
      exact hd ▸ rfl

theorem finds_readWhole {ds : List Nat} {cs rest : List Char} (h : WholeText ds cs)
    (hrest : NoDigit rest) (p : Position) :
    Finds (readWhole ⟨cs ++ rest, p⟩) (some ds) rest := by
  cases h with
  | zero =>
      cases rest with
      | nil => exact Finds.ok _ _ _
      | cons d rest =>
          have hd := hrest d rfl
          simp only [readWhole, List.cons_append, List.nil_append, if_true, Cursor.advance, hd,
            Bool.false_eq_true, if_false]
          exact Finds.ok _ _ _
  | @digits _ d cs hd h =>
      have hdigit : d.isDigit = true := h.1 d List.mem_cons_self
      obtain ⟨q, hq⟩ := readDigits_append h hrest p
      unfold readWhole
      rw [List.cons_append] at hq ⊢
      simp only [if_neg hd, hdigit, if_true, hq]
      exact Finds.ok _ _ _

theorem exists_wholeText (c : Cursor) :
    Yields (readWhole c) fun p => ∃ cs, WholeText p.1 cs ∧ c.rest = cs ++ p.2.rest := by
  unfold readWhole
  split
  · exact .error _
  · rename_i d ds hrest
    have hadvance := Cursor.rest_advance hrest
    split_ifs with hzero hdigit
    · have hends : c.rest = ['0'] ++ c.advance.rest := by rw [hrest, hadvance, hzero]; rfl
      split
      · split_ifs
        · exact .error _
        · exact .ok ⟨['0'], .zero, hends⟩
      · exact .ok ⟨['0'], .zero, hends⟩
    · obtain ⟨cs, hcs, hends⟩ := digitsText_readDigits c
      refine .ok ⟨cs, ?_, hends⟩
      cases cs with
      | nil => exact absurd (hcs.eq_nil_iff.mpr rfl) (readDigits_ne_nil hrest hdigit)
      | cons e es =>
          rw [hrest, List.cons_append, List.cons.injEq] at hends
          exact .digits (hends.1 ▸ hzero) hcs
    · exact .error _

theorem finds_readFraction {x : Option (List Nat)} {cs rest : List Char} (h : FractionText x cs)
    (hrest : NoDigit rest) (hpoint : rest.head? ≠ some '.') (p : Position) :
    Finds (readFraction ⟨cs ++ rest, p⟩) (some x) rest := by
  cases h with
  | absent =>
      unfold readFraction
      split
      · rename_i hdot
        exact absurd (congrArg List.head? hdot) hpoint
      · exact Finds.ok _ _ _
  | @present ds cs h hne =>
      obtain ⟨q, hq⟩ := readDigits_append h hrest (p.after '.')
      unfold readFraction
      simp only [List.cons_append, Cursor.advance, hq]
      split
      · rename_i heq
        exact absurd (h.eq_nil_iff.mp (congrArg Prod.fst heq)) hne
      · rename_i heq
        rw [Prod.mk.injEq] at heq
        rw [← heq.1, ← heq.2]
        exact Finds.ok _ _ _

theorem exists_fractionText (c : Cursor) :
    Yields (readFraction c) fun p => ∃ cs, FractionText p.1 cs ∧ c.rest = cs ++ p.2.rest := by
  unfold readFraction
  split
  · rename_i ds hrest
    have hadvance := Cursor.rest_advance hrest
    obtain ⟨cs, hcs, hends⟩ := digitsText_readDigits c.advance
    split
    · split_ifs <;> exact .error _
    · rename_i ds c₁ hne hread
      rw [hread] at hcs hends
      refine .ok ⟨'.' :: cs, .present hcs (fun hnil => hne (hcs.eq_nil_iff.mpr hnil)), ?_⟩
      rw [hrest, ← hadvance, hends, List.cons_append]
  · exact .ok ⟨[], .absent, rfl⟩

theorem readSign_append {negative : Bool} {sign cs : List Char} {ds : List Nat}
    (hsign : SignText negative sign) (h : DigitsText ds cs) (hne : cs ≠ []) (rest : List Char)
    (p : Position) :
    ∃ q, readSign ⟨sign ++ (cs ++ rest), p⟩ = (negative, ⟨cs ++ rest, q⟩) := by
  cases hsign with
  | plus => exact ⟨_, rfl⟩
  | minus => exact ⟨_, rfl⟩
  | absent =>
      obtain ⟨d, cs, rfl⟩ := List.exists_cons_of_ne_nil hne
      have hd : d.isDigit = true := h.1 d List.mem_cons_self
      refine ⟨p, ?_⟩
      unfold readSign
      split
      · rename_i heq
        rw [List.nil_append, List.cons_append, List.cons.injEq] at heq
        rw [heq.1] at hd
        exact absurd hd (by decide)
      · rename_i heq
        rw [List.nil_append, List.cons_append, List.cons.injEq] at heq
        rw [heq.1] at hd
        exact absurd hd (by decide)
      · rfl

theorem signText_readSign (c : Cursor) :
    ∃ sign, SignText (readSign c).1 sign ∧ c.rest = sign ++ (readSign c).2.rest := by
  unfold readSign
  split
  · rename_i hrest
    exact ⟨['-'], .minus, by rw [Cursor.rest_advance hrest, hrest]; rfl⟩
  · rename_i hrest
    exact ⟨['+'], .plus, by rw [Cursor.rest_advance hrest, hrest]; rfl⟩
  · exact ⟨[], .absent, rfl⟩

theorem finds_readExponent {negative : Bool} {signText cs rest : List Char} {ds : List Nat}
    (hsign : SignText negative signText) (h : DigitsText ds cs) (hne : cs ≠ [])
    (hrest : NoDigit rest) (sign : Bool) (significand : Nat) (exponent : Int) (p : Position) :
    Finds (readExponent sign significand exponent ⟨signText ++ (cs ++ rest), p⟩)
      (scaledBy? sign significand exponent negative ds) rest := by
  obtain ⟨q, hq⟩ := readSign_append hsign h hne _ p
  obtain ⟨q', hq'⟩ := readDigits_append h hrest q
  have hds : ds ≠ [] := fun hnil => hne (h.eq_nil_iff.mp hnil)
  obtain ⟨d, ds, rfl⟩ := List.exists_cons_of_ne_nil hds
  unfold readExponent scaledBy?
  rw [hq]
  simp only
  rw [hq']
  simp only
  cases gatherDigits exponentBound 0 (d :: ds) with
  | mk e left =>
      cases left with
      | nil => exact finds_scaled _ _ _ rest q'
      | cons l left =>
          simp only
          split_ifs
          · exact Finds.error _ _
          · exact Finds.ok _ _ _

theorem exists_exponentText (sign : Bool) (significand : Nat) (exponent : Int) (c : Cursor) :
    Yields (readExponent sign significand exponent c) fun p => ∃ negative ds signText cs,
      SignText negative signText ∧ DigitsText ds cs ∧ cs ≠ [] ∧
        scaledBy? sign significand exponent negative ds = some p.1 ∧
          c.rest = signText ++ (cs ++ p.2.rest) := by
  obtain ⟨signText, hsign, hends⟩ := signText_readSign c
  obtain ⟨cs, hcs, hends'⟩ := digitsText_readDigits (readSign c).2
  unfold readExponent
  simp only
  split
  · split_ifs <;> exact .error _
  · rename_i ds behind hne hread
    rw [hread] at hcs hends'
    simp only at hcs hends'
    rw [hends'] at hends
    have hnil : cs ≠ [] := fun hnil => hne (hcs.eq_nil_iff.mpr hnil)
    split
    · rename_i e hgather
      refine (scaled?_of_scaled _ _ _ behind).mono fun p ⟨hp, hbehind⟩ => ?_
      refine ⟨_, ds, signText, cs, hsign, hcs, hnil, ?_, hbehind ▸ hends⟩
      unfold scaledBy?
      simp only [hgather]
      exact hp
    · rename_i e left hleft hgather
      split_ifs with hzero
      · exact .error _
      · refine .ok ⟨_, ds, signText, cs, hsign, hcs, hnil, ?_, hends⟩
        unfold scaledBy?
        split
        · rename_i heq
          rw [hgather] at heq
          exact absurd (congrArg Prod.snd heq) hleft
        · rw [if_neg hzero]

theorem finds_readNumber {x : Numeral} {cs rest : List Char} (h : NumeralText x cs)
    (hrest : Ends rest) (sign : Bool) (p : Position) :
    Finds (readNumber sign ⟨cs ++ rest, p⟩) (x.number? sign) rest := by
  obtain ⟨ds, fraction?, exponent?⟩ := x
  cases h with
  | @mk whole fraction exponent hwhole hfraction hexponent =>
      have hbehind := hexponent.noDigit hrest
      rw [List.append_assoc, List.append_assoc]
      refine (finds_readWhole hwhole (hfraction.noDigit hbehind.1) p).then fun q => ?_
      refine (finds_readFraction hfraction hbehind.1 hbehind.2 q).then fun q => ?_
      unfold Numeral.number? Numeral.significand
      simp only
      cases hexponent with
      | present he hsign hdigits hne =>
          rw [List.cons_append, List.append_assoc]
          rcases he with rfl | rfl <;>
            exact finds_readExponent hsign hdigits hne (fun d hd => (hrest d hd).1) _ _ _ _
      | absent =>
          rw [List.nil_append]
          split
          · exact absurd rfl (hrest 'e' rfl).2.2.1
          · exact absurd rfl (hrest 'E' rfl).2.2.2
          · split_ifs
            · exact finds_scaled _ _ _ rest q
            · exact finds_integer _ _ rest q

theorem exists_numeralText (sign : Bool) (c : Cursor) :
    Yields (readNumber sign c) fun p => ∃ x cs, NumeralText x cs ∧ x.number? sign = some p.1 ∧
      c.rest = cs ++ p.2.rest := by
  refine (exists_wholeText c).bind fun ⟨ds, c₁⟩ ⟨whole, hwhole, h₁⟩ => ?_
  refine (exists_fractionText c₁).bind fun ⟨fraction?, c₂⟩ ⟨fraction, hfraction, h₂⟩ => ?_
  simp only at hwhole h₁ hfraction h₂ ⊢
  have hexponent {e : Char} {es : List Char} (he : e = 'e' ∨ e = 'E') (hrest : c₂.rest = e :: es) :
      Yields (readExponent sign (Numeral.mk ds fraction? none).significand.1
        (Numeral.mk ds fraction? none).significand.2 c₂.advance) fun p => ∃ x cs,
          NumeralText x cs ∧ x.number? sign = some p.1 ∧ c.rest = cs ++ p.2.rest := by
    refine (exists_exponentText sign _ _ c₂.advance).mono ?_
    rintro p ⟨negative, es, signText, cs, hsign, hcs, hne, hp, h₃⟩
    refine ⟨⟨ds, fraction?, some (negative, es)⟩, _,
      .mk hwhole hfraction (.present he hsign hcs hne), hp, ?_⟩
    rw [h₁, h₂, hrest, ← Cursor.rest_advance hrest, h₃]
    simp only [List.append_assoc, List.cons_append]
  have hends : c.rest = whole ++ (fraction ++ []) ++ c₂.rest := by
    rw [h₁, h₂, List.append_nil, List.append_assoc]
  have htext : NumeralText ⟨ds, fraction?, none⟩ (whole ++ (fraction ++ [])) :=
    .mk hwhole hfraction .absent
  split
  · rename_i hrest
    exact hexponent (Or.inl rfl) hrest
  · rename_i hrest
    exact hexponent (Or.inr rfl) hrest
  · split_ifs with hscaled
    · refine (scaled?_of_scaled _ _ _ c₂).mono fun p ⟨hp, hc⟩ => ?_
      exact ⟨_, _, htext, (if_pos hscaled).trans hp, hc ▸ hends⟩
    · refine (integer?_of_integer _ _ c₂).mono fun p ⟨hp, hc⟩ => ?_
      exact ⟨_, _, htext, (if_neg hscaled).trans hp, hc ▸ hends⟩

/-! ## Looking for the end -/

theorem skipWhole_iff (c c' : Cursor) :
    skipWhole c = .ok c' ↔ ∃ ds, readWhole c = .ok (ds, c') := by
  unfold skipWhole readWhole
  split
  · simp [Cursor.here]
  · split_ifs
    · split
      · split_ifs
        · simp [Cursor.atNext]
        · simp
      · simp
    · simp [readDigits]
    · simp [Cursor.atNext]

theorem reaches_skipDigits {ds : List Nat} {cs rest : List Char} (h : DigitsText ds cs)
    (hne : cs ≠ []) (hrest : NoDigit rest) (p : Position) :
    Reaches (skipDigits ⟨cs ++ rest, p⟩) rest := by
  obtain ⟨q, hq⟩ := readDigits_append h hrest p
  obtain ⟨d, cs, rfl⟩ := List.exists_cons_of_ne_nil hne
  have hdigit : d.isDigit = true := h.1 d List.mem_cons_self
  refine ⟨q, ?_⟩
  unfold skipDigits
  rw [List.cons_append] at hq ⊢
  simp only [hdigit, if_true]
  exact congrArg (Except.ok ·.2) hq

theorem exists_digitsText (c : Cursor) :
    Yields (skipDigits c) fun c' => ∃ ds cs, DigitsText ds cs ∧ cs ≠ [] ∧
      c.rest = cs ++ c'.rest := by
  unfold skipDigits
  split
  · rename_i d es hrest
    split_ifs with hdigit
    · obtain ⟨cs, hcs, hends⟩ := digitsText_readDigits c
      exact .ok ⟨_, cs, hcs, hcs.eq_nil_iff.not.mp (readDigits_ne_nil hrest hdigit), hends⟩
    · exact .error _
  · exact .error _

theorem reaches_skipFraction {x : Option (List Nat)} {cs rest : List Char} (h : FractionText x cs)
    (hrest : NoDigit rest) (hpoint : rest.head? ≠ some '.') (p : Position) :
    Reaches (skipFraction ⟨cs ++ rest, p⟩) rest := by
  cases h with
  | present h hne => exact reaches_skipDigits h hne hrest _
  | absent =>
      unfold skipFraction
      split
      · rename_i hdot
        exact absurd (congrArg List.head? hdot) hpoint
      · exact Reaches.ok _ _

theorem exists_fractionText_of_skip (c : Cursor) :
    Yields (skipFraction c) fun c' => ∃ x cs, FractionText x cs ∧ c.rest = cs ++ c'.rest := by
  unfold skipFraction
  split
  · rename_i es hrest
    refine (exists_digitsText c.advance).mono fun c₁ ⟨ds, cs, hcs, hne, hends⟩ => ?_
    refine ⟨some ds, '.' :: cs, .present hcs hne, ?_⟩
    rw [hrest, ← Cursor.rest_advance hrest, hends, List.cons_append]
  · exact .ok ⟨none, [], .absent, rfl⟩

theorem reaches_skipExponent {x : Option (Bool × List Nat)} {cs rest : List Char}
    (h : ExponentText x cs) (hrest : Ends rest) (p : Position) :
    Reaches (skipExponent ⟨cs ++ rest, p⟩) rest := by
  cases h with
  | absent =>
      unfold skipExponent
      split
      · rename_i heq
        exact absurd rfl (hrest 'e' (congrArg List.head? heq)).2.2.1
      · rename_i heq
        exact absurd rfl (hrest 'E' (congrArg List.head? heq)).2.2.2
      · exact Reaches.ok _ _
  | @present negative ds e sign cs he hsign h hne =>
      obtain ⟨q, hq⟩ := readSign_append hsign h hne rest (p.after e)
      have hdigits := reaches_skipDigits h hne (fun d hd => (hrest d hd).1) q
      rw [List.cons_append, List.append_assoc]
      have hskip : skipExponent ⟨e :: (sign ++ (cs ++ rest)), p⟩ = skipDigits ⟨cs ++ rest, q⟩ := by
        rcases he with rfl | rfl <;> exact congrArg (fun s => skipDigits s.2) hq
      rwa [hskip]

theorem exists_exponentText_of_skip (c : Cursor) :
    Yields (skipExponent c) fun c' => ∃ x cs, ExponentText x cs ∧ c.rest = cs ++ c'.rest := by
  have hexponent {e : Char} {es : List Char} (he : e = 'e' ∨ e = 'E') (hrest : c.rest = e :: es) :
      Yields (skipDigits (readSign c.advance).2) fun c' => ∃ x cs, ExponentText x cs ∧
        c.rest = cs ++ c'.rest := by
    obtain ⟨sign, hsign, hdigits⟩ := signText_readSign c.advance
    refine (exists_digitsText _).mono fun c₁ ⟨ds, cs, hcs, hne, hends⟩ => ?_
    refine ⟨_, _, .present he hsign hcs hne, ?_⟩
    rw [hrest, ← Cursor.rest_advance hrest, hdigits, hends, List.cons_append, List.append_assoc]
  unfold skipExponent
  split
  · rename_i hrest
    exact hexponent (Or.inl rfl) hrest
  · rename_i hrest
    exact hexponent (Or.inr rfl) hrest
  · exact .ok ⟨none, [], .absent, rfl⟩

theorem reaches_skipNumber {x : Numeral} {cs rest : List Char} (h : NumeralText x cs)
    (hrest : Ends rest) (p : Position) : Reaches (skipNumber ⟨cs ++ rest, p⟩) rest := by
  cases h with
  | @mk whole fraction exponent hwhole hfraction hexponent =>
      have hbehind := hexponent.noDigit hrest
      obtain ⟨q, hq⟩ := finds_readWhole hwhole (hfraction.noDigit hbehind.1) p
      have hskip : Reaches (skipWhole ⟨whole ++ (fraction ++ (exponent ++ rest)), p⟩)
          (fraction ++ (exponent ++ rest)) := ⟨q, (skipWhole_iff _ _).mpr ⟨_, hq⟩⟩
      rw [List.append_assoc, List.append_assoc]
      refine hskip.bind fun q => ?_
      refine (reaches_skipFraction hfraction hbehind.1 hbehind.2 q).bind fun q => ?_
      exact reaches_skipExponent hexponent hrest q

theorem exists_numeralText_of_skip (c : Cursor) :
    Yields (skipNumber c) fun c' => ∃ x cs, NumeralText x cs ∧ c.rest = cs ++ c'.rest := by
  have hwhole : Yields (skipWhole c) fun c₁ => ∃ ds cs, WholeText ds cs ∧
      c.rest = cs ++ c₁.rest := by
    intro c₁ h
    obtain ⟨ds, hread⟩ := (skipWhole_iff c c₁).mp h
    exact ⟨ds, exists_wholeText c _ hread⟩
  refine hwhole.bind fun c₁ ⟨ds, whole, hwhole, h₁⟩ => ?_
  refine (exists_fractionText_of_skip c₁).bind fun c₂ ⟨x, fraction, hfraction, h₂⟩ => ?_
  refine (exists_exponentText_of_skip c₂).mono fun c₃ ⟨y, exponent, hexponent, h₃⟩ => ?_
  refine ⟨⟨ds, x, y⟩, _, .mk hwhole hfraction hexponent, ?_⟩
  rw [h₁, h₂, h₃, List.append_assoc, List.append_assoc]

end Json
end GrammarRecords
