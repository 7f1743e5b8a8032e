/-
Texts of strings.

Between the quotes stands a character for itself or an escape for one or two
sixteen-bit units, of which a surrogate needs the other half of its pair.  The
strict reader reads exactly these texts (`finds_readString`, `exists_charsText`).
The reader that only looks for the end accepts any sixteen-bit unit.
-/
import GrammarRecords.Json.StringReader
import GrammarRecords.Proofs.Json.Spelling.Basic
import GrammarRecords.Proofs.Outcome

namespace GrammarRecords
namespace Json

/-! ## Texts -/

/-- Four hexadecimal digits. -/
inductive HexText : Nat → List Char → Prop
  | mk {h₁ h₂ h₃ h₄ : Char} {a b d e : Nat} (ha : Text.hexValue? h₁ = some a)
      (hb : Text.hexValue? h₂ = some b) (hd : Text.hexValue? h₃ = some d)
      (he : Text.hexValue? h₄ = some e) :
      HexText (((a * 16 + b) * 16 + d) * 16 + e) [h₁, h₂, h₃, h₄]

/-- What stands behind a backslash for a character. -/
inductive EscapeText : Char → List Char → Prop
  | short {c d : Char} (h : shortEscape? d = some c) : EscapeText c [d]
  | code {n : Nat} {cs : List Char} (h : HexText n cs) (hleading : isLeadingSurrogate n = false)
      (htrailing : isTrailingSurrogate n = false) : EscapeText (Char.ofNat n) ('u' :: cs)
  | pair {n m : Nat} {cs ds : List Char} (hn : HexText n cs) (hm : HexText m ds)
      (hleading : isLeadingSurrogate n = true) (htrailing : isTrailingSurrogate m = true) :
      EscapeText (Char.ofNat (0x10000 + (n - 0xd800) * 0x400 + (m - 0xdc00)))
        ('u' :: (cs ++ '\\' :: 'u' :: ds))

def IsPlain (c : Char) : Prop := c ≠ '"' ∧ c ≠ '\\' ∧ isControl c = false

inductive CharsText : List Char → List Char → Prop
  | nil : CharsText [] []
  | plain {c : Char} {cs text : List Char} (hc : IsPlain c) (h : CharsText cs text) :
      CharsText (c :: cs) (c :: text)
  | escaped {c : Char} {escape cs text : List Char} (hc : EscapeText c escape)
      (h : CharsText cs text) : CharsText (c :: cs) ('\\' :: (escape ++ text))

inductive StringText : String → List Char → Prop
  | mk {s : String} {body : List Char} (h : CharsText s.toList body) :
      StringText s ('"' :: (body ++ ['"']))

/-- An escape for any sixteen-bit unit. -/
inductive UnitText : List Char → Prop
  | short {d : Char} (h : (shortEscape? d).isSome = true) : UnitText [d]
  | code {n : Nat} {cs : List Char} (h : HexText n cs) : UnitText ('u' :: cs)

inductive UnitsText : List Char → Prop
  | nil : UnitsText []
  | plain {c : Char} {text : List Char} (hc : IsPlain c) (h : UnitsText text) :
      UnitsText (c :: text)
  | escaped {escape text : List Char} (he : UnitText escape) (h : UnitsText text) :
      UnitsText ('\\' :: (escape ++ text))

theorem ne_u_of_shortEscape? {d : Char} (h : (shortEscape? d).isSome = true) : d ≠ 'u' := by
  rintro rfl
  exact absurd h (by decide)

theorem CharsText.length_le {cs text : List Char} (h : CharsText cs text) :
    cs.length ≤ text.length := by
  induction h with
  | nil => exact Nat.le_refl 0
  | plain hc h ih =>
      simp only [List.length_cons]
      omega
  | escaped hc h ih =>
      simp only [List.length_cons, List.length_append]
      omega

/-! ## Reading -/

theorem finds_readHex4 {n : Nat} {cs : List Char} (h : HexText n cs) (rest : List Char)
    (p : Position) : Finds (readHex4 ⟨cs ++ rest, p⟩) (some n) rest := by
  cases h with
  | @mk h₁ h₂ h₃ h₄ _ _ _ _ ha hb hd he =>
      have hbytes : hasFourBytes ([h₁, h₂, h₃, h₄] ++ rest) = true := by
        have hs := And.intro h₁.utf8Size_pos (And.intro h₂.utf8Size_pos
          (And.intro h₃.utf8Size_pos h₄.utf8Size_pos))
        simp only [hasFourBytes, List.cons_append, List.nil_append, List.take_succ_cons,
          List.take_zero, List.foldr_cons, List.foldr_nil]
        exact decide_eq_true (by omega)
      unfold readHex4
      rw [if_pos hbytes]
      simp only [List.cons_append, List.nil_append, ha, hb, hd, he]
      exact Finds.ok _ _ _

theorem exists_hexText (c : Cursor) :
    Yields (readHex4 c) fun p => ∃ cs, HexText p.1 cs ∧ c.rest = cs ++ p.2.rest := by
  unfold readHex4
  split
  · split
    · rename_i h₁ h₂ h₃ h₄ rest hrest
      split
      · rename_i ha hb hd he
        obtain ⟨rest', position⟩ := c
        obtain rfl : rest' = h₁ :: h₂ :: h₃ :: h₄ :: rest := hrest
        exact .ok ⟨[h₁, h₂, h₃, h₄], .mk ha hb hd he, rfl⟩
      · exact .error _
    · exact .error _
  · exact .error _

theorem reaches_expectInPair (d : Char) (rest : List Char) (p : Position) :
    Reaches (expectInPair d ⟨d :: rest, p⟩) rest := by
  unfold expectInPair
  simp only [if_true]
  exact Reaches.ok _ _

theorem rest_expectInPair (d : Char) (c : Cursor) :
    Yields (expectInPair d c) fun c' => c.rest = d :: c'.rest := by
  unfold expectInPair
  split
  · exact .error _
  · rename_i e ds hrest
    split
    · rename_i he
      subst he
      exact .ok (by rw [hrest, Cursor.rest_advance hrest])
    · exact .error _

theorem finds_readEscape {c : Char} {escape : List Char} (h : EscapeText c escape)
    (rest : List Char) (p : Position) :
    Finds (readEscape ⟨escape ++ rest, p⟩) (some c) rest := by
  cases h with
  | @short _ d h =>
      have hd := ne_u_of_shortEscape? (Option.isSome_of_eq_some h)
      unfold readEscape
      simp only [List.singleton_append, if_neg hd, h]
      exact Finds.ok _ _ _
  | code h hleading htrailing =>
      refine (finds_readHex4 h rest _).then fun q => ?_
      simp only [hleading, htrailing, Bool.false_eq_true, if_false]
      exact Finds.ok _ _ _
  | @pair n _ cs ds hn hm hleading htrailing =>
      have htext : 'u' :: (cs ++ '\\' :: 'u' :: ds) ++ rest =
          'u' :: (cs ++ '\\' :: 'u' :: (ds ++ rest)) := by simp
      have hnot : isTrailingSurrogate n = false := by
        simp only [isLeadingSurrogate, Bool.and_eq_true, decide_eq_true_eq] at hleading
        simp only [isTrailingSurrogate, Bool.and_eq_false_iff, decide_eq_false_iff_not]
        omega
      rw [htext]
      refine (finds_readHex4 hn _ _).then fun q => ?_
      simp only [hnot, hleading, Bool.false_eq_true, if_false, if_true]
      refine (reaches_expectInPair '\\' _ q).finds fun q => ?_
      refine (reaches_expectInPair 'u' _ q).finds fun q => ?_
      refine (finds_readHex4 hm rest q).then fun q => ?_
      simp only [htrailing, if_true]
      exact Finds.ok _ _ _

theorem exists_escapeText (c : Cursor) :
    Yields (readEscape c) fun p => ∃ escape, EscapeText p.1 escape ∧
      c.rest = escape ++ p.2.rest := by
  unfold readEscape
  split
  · exact .error _
  · rename_i d ds hrest
    have hadvance := Cursor.rest_advance hrest
    split
    · rename_i hd
      subst hd
      refine (exists_hexText c.advance).bind fun ⟨n, c₁⟩ ⟨cs, hn, hcs⟩ => ?_
      simp only at hn hcs ⊢
      split
      · exact .error _
      · rename_i htrailing
        split
        · rename_i hleading
          refine (rest_expectInPair '\\' c₁).bind fun c₂ h₂ => ?_
          refine (rest_expectInPair 'u' c₂).bind fun c₃ h₃ => ?_
          refine (exists_hexText c₃).bind fun ⟨m, c₄⟩ ⟨es, hm, hes⟩ => ?_
          simp only at hm hes ⊢
          split
          · rename_i hpair
            have hescape := EscapeText.pair hn hm hleading hpair
            refine .ok ?_
            simp only
            refine ⟨_, hescape, ?_⟩
            rw [hrest, ← hadvance, hcs, h₂, h₃, hes]
            simp
          · exact .error _
        · rename_i hleading
          refine .ok ⟨_, .code hn (by simpa using hleading) (by simpa using htrailing), ?_⟩
          rw [hrest, ← hadvance, hcs, List.cons_append]
    · split
      · rename_i e he
        exact .ok ⟨[d], .short he, by rw [hrest, hadvance]; rfl⟩
      · exact .error _

theorem finds_readChars {cs text : List Char} (h : CharsText cs text) {steps : List Char}
    (hsteps : cs.length < steps.length) (rest : List Char) (p : Position) :
    Finds (readChars steps ⟨text ++ '"' :: rest, p⟩) (some cs) rest := by
  induction h generalizing steps p with
  | nil =>
      cases steps with
      | nil => exact absurd hsteps (Nat.not_lt_zero _)
      | cons step steps => exact ⟨_, rfl⟩
  | @plain c _ text hc h ih =>
      cases steps with
      | nil => exact absurd hsteps (Nat.not_lt_zero _)
      | cons step steps =>
          have hrest := ih (Nat.lt_of_succ_lt_succ hsteps) (p.after c)
          rw [List.cons_append, readChars]
          simp only [if_neg hc.1, if_neg hc.2.1, hc.2.2, Bool.false_eq_true, if_false]
          exact hrest.then fun q => Finds.ok _ _ q
  | @escaped c escape _ text hc h ih =>
      cases steps with
      | nil => exact absurd hsteps (Nat.not_lt_zero _)
      | cons step steps =>
          have hescape := finds_readEscape hc (text ++ '"' :: rest) (p.after '\\')
          rw [List.cons_append, List.append_assoc]
          refine hescape.then fun q => ?_
          exact (ih (Nat.lt_of_succ_lt_succ hsteps) q).then fun q => Finds.ok _ _ q

theorem exists_charsText (steps : List Char) (c : Cursor) :
    Yields (readChars steps c) fun p => ∃ text, CharsText p.1 text ∧
      c.rest = text ++ '"' :: p.2.rest := by
  induction steps generalizing c with
  | nil => exact .error _
  | cons _ steps ih =>
      rw [readChars]
      split
      · exact .error _
      · rename_i d ds hrest
        have hadvance := Cursor.rest_advance hrest
        split_ifs with hquote hbackslash hcontrol
        · refine .ok ⟨[], .nil, ?_⟩
          rw [hrest, hadvance, hquote, List.nil_append]
        · refine (exists_escapeText c.advance).bind fun ⟨e, c₁⟩ ⟨escape, he, hescape⟩ => ?_
          refine (ih c₁).bind fun ⟨es, c₂⟩ ⟨text, htext, hends⟩ => .ok ?_
          simp only at he hescape htext hends ⊢
          refine ⟨_, .escaped he htext, ?_⟩
          rw [hrest, hbackslash, ← hadvance, hescape, hends, List.cons_append, List.append_assoc]
        · exact .error _
        · refine (ih c.advance).bind fun ⟨es, c₂⟩ ⟨text, htext, hends⟩ => .ok ?_
          simp only at htext hends ⊢
          refine ⟨_, .plain ⟨hquote, hbackslash, by simpa using hcontrol⟩ htext, ?_⟩
          rw [hrest, ← hadvance, hends, List.cons_append]

theorem finds_readString {s : String} {body : List Char} (h : CharsText s.toList body)
    (rest : List Char) (p : Position) :
    Finds (readString ⟨body ++ '"' :: rest, p⟩) (some s) rest := by
  have hsteps : s.toList.length < (body ++ '"' :: rest).length := by
    have hlength := h.length_le
    rw [List.length_append, List.length_cons]
    omega
  refine (finds_readChars h hsteps rest p).then fun q => ?_
  simp only [String.ofList_toList]
  exact Finds.ok _ _ q

theorem exists_stringText (c : Cursor) :
    Yields (readString c) fun p => ∃ body, CharsText p.1.toList body ∧
      c.rest = body ++ '"' :: p.2.rest := by
  refine (exists_charsText c.rest c).bind fun ⟨cs, c₁⟩ ⟨text, htext, hends⟩ => .ok ?_
  exact ⟨text, by rwa [String.toList_ofList], hends⟩

/-! ## Looking for the end -/

theorem reaches_skipEscape {escape : List Char} (h : UnitText escape) (rest : List Char)
    (p : Position) : Reaches (skipEscape ⟨escape ++ rest, p⟩) rest := by
  cases h with
  | short h =>
      unfold skipEscape
      simp only [List.singleton_append, if_neg (ne_u_of_shortEscape? h), h, if_true]
      exact Reaches.ok _ _
  | @code n cs h =>
      obtain ⟨q, hq⟩ := finds_readHex4 h rest (p.after 'u')
      have hread : readHex4 (Cursor.advance ⟨'u' :: cs ++ rest, p⟩) = .ok (n, ⟨rest, q⟩) := hq
      unfold skipEscape
      simp only [List.cons_append, if_true] at hread ⊢
      rw [hread]
      exact Reaches.ok _ _

theorem exists_unitText (c : Cursor) :
    Yields (skipEscape c) fun c' => ∃ escape, UnitText escape ∧ c.rest = escape ++ c'.rest := by
  unfold skipEscape
  split
  · exact .error _
  · rename_i d ds hrest
    have hadvance := Cursor.rest_advance hrest
    split_ifs with hu hshort
    · refine (exists_hexText c.advance).bind fun ⟨n, c₁⟩ ⟨cs, hn, hcs⟩ => .ok ?_
      simp only at hn hcs ⊢
      exact ⟨_, .code hn, by rw [hrest, hu, ← hadvance, hcs, List.cons_append]⟩
    · exact .ok ⟨[d], .short hshort, by rw [hrest, hadvance]; rfl⟩
    · exact .error _

theorem reaches_skipChars {text : List Char} (h : UnitsText text) {steps : List Char}
    (hsteps : text.length < steps.length) (rest : List Char) (p : Position) :
    Reaches (skipChars steps ⟨text ++ '"' :: rest, p⟩) rest := by
  induction h generalizing steps p with
  | nil =>
      cases steps with
      | nil => exact absurd hsteps (Nat.not_lt_zero _)
      | cons step steps => exact ⟨_, rfl⟩
  | @plain c text hc h ih =>
      cases steps with
      | nil => exact absurd hsteps (Nat.not_lt_zero _)
      | cons step steps =>
          have hrest := ih (Nat.lt_of_succ_lt_succ hsteps) (p.after c)
          rw [List.cons_append, skipChars]
          simp only [if_neg hc.1, if_neg hc.2.1, hc.2.2, Bool.false_eq_true, if_false]
          exact hrest
  | @escaped escape text he h ih =>
      cases steps with
      | nil => exact absurd hsteps (Nat.not_lt_zero _)
      | cons step steps =>
          have hescape := reaches_skipEscape he (text ++ '"' :: rest) (p.after '\\')
          rw [List.cons_append, List.append_assoc]
          refine hescape.bind fun q => ih ?_ q
          simp only [List.length_cons, List.length_append] at hsteps
          omega

theorem exists_unitsText (steps : List Char) (c : Cursor) :
    Yields (skipChars steps c) fun c' => ∃ text, UnitsText text ∧
      c.rest = text ++ '"' :: c'.rest := by
  induction steps generalizing c with
  | nil => exact .error _
  | cons _ steps ih =>
      rw [skipChars]
      split
      · exact .error _
      · rename_i d ds hrest
        have hadvance := Cursor.rest_advance hrest
        split_ifs with hquote hbackslash hcontrol
        · refine .ok ⟨[], .nil, ?_⟩
          rw [hrest, hadvance, hquote, List.nil_append]
        · refine (exists_unitText c.advance).bind fun c₁ ⟨escape, he, hescape⟩ => ?_
          refine (ih c₁).mono fun c₂ ⟨text, htext, hends⟩ => ?_
          refine ⟨_, .escaped he htext, ?_⟩
          rw [hrest, hbackslash, ← hadvance, hescape, hends, List.cons_append, List.append_assoc]
        · exact .error _
        · refine (ih c.advance).mono fun c₂ ⟨text, htext, hends⟩ => ?_
          refine ⟨_, .plain ⟨hquote, hbackslash, by simpa using hcontrol⟩ htext, ?_⟩
          rw [hrest, ← hadvance, hends, List.cons_append]

theorem reaches_skipString {text : List Char} (h : UnitsText text) (rest : List Char)
    (p : Position) : Reaches (skipString ⟨text ++ '"' :: rest, p⟩) rest := by
  refine reaches_skipChars h ?_ rest p
  simp only [List.length_append, List.length_cons]
  omega

end Json
end GrammarRecords
