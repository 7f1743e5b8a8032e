/-
What is read is no larger than the text it is read from.

The bytes that are left behind a value, together with the bytes of all texts in
the value and one for each pair of brackets, are no more than the bytes that
were left in front of it.  Escapes shrink: each takes at least as many bytes as
the character that it stands for.  The loops for elements and members keep any
such bound that their steps keep, so that `readValue_weight` is an induction on
the bound for the depth alone.
-/
import GrammarRecords.Json.Skipper
import GrammarRecords.Proofs.Outcome
import Mathlib.Tactic.SplitIfs

namespace GrammarRecords
namespace Json

/-! ## Bytes that are left -/

def byteCount : List Char → Nat
  | [] => 0
  | c :: cs => c.utf8Size + byteCount cs

theorem byteCount_append (cs ds : List Char) :
    byteCount (cs ++ ds) = byteCount cs + byteCount ds := by
  induction cs with
  | nil => exact (Nat.zero_add _).symm
  | cons c cs ih => rw [List.cons_append, byteCount, byteCount, ih, Nat.add_assoc]

theorem utf8ByteSize_ofList (cs : List Char) : (String.ofList cs).utf8ByteSize = byteCount cs := by
  induction cs with
  | nil => rfl
  | cons c cs ih =>
      rw [String.ofList_cons, String.utf8ByteSize_append, String.utf8ByteSize_singleton, ih]
      rfl

namespace Cursor

def room (c : Cursor) : Nat := byteCount c.rest

theorem room_ofText (s : String) : (ofText s).room = s.utf8ByteSize := by
  rw [room, ofText, ← utf8ByteSize_ofList, String.ofList_toList]

theorem room_advance {c : Cursor} {d : Char} {ds : List Char} (h : c.rest = d :: ds) :
    d.utf8Size + c.advance.room = c.room := by
  obtain ⟨rest, position⟩ := c
  obtain rfl : rest = d :: ds := h
  rfl

theorem room_advance_lt {c : Cursor} {d : Char} {ds : List Char} (h : c.rest = d :: ds) :
    c.advance.room + 1 ≤ c.room := by
  have hsize := d.utf8Size_pos
  have hroom := room_advance h
  omega

theorem room_advance_le (c : Cursor) : c.advance.room ≤ c.room := by
  cases h : c.rest with
  | nil =>
      obtain ⟨rest, position⟩ := c
      obtain rfl : rest = [] := h
      exact Nat.le_refl _
  | cons d ds => exact Nat.le_of_succ_le (room_advance_lt h)

theorem room_skipWhile_le (p : Char → Bool) (c : Cursor) : (c.skipWhile p).room ≤ c.room := by
  have happend := byteCount_append (c.rest.takeWhile p) (c.rest.dropWhile p)
  rw [List.takeWhile_append_dropWhile] at happend
  show byteCount (c.rest.dropWhile p) ≤ byteCount c.rest
  omega

theorem room_skipBlank_le (c : Cursor) : c.skipBlank.room ≤ c.room :=
  room_skipWhile_le isBlank c

theorem room_advance_skipBlank_le (c : Cursor) : c.skipBlank.advance.room ≤ c.room :=
  Nat.le_trans c.skipBlank.room_advance_le c.room_skipBlank_le

theorem room_skipBlank_advance_le (c : Cursor) : c.advance.skipBlank.room ≤ c.room :=
  Nat.le_trans c.advance.room_skipBlank_le c.room_advance_le

end Cursor

/-! ## Strings -/

theorem readHex4_weight (c : Cursor) : Yields (readHex4 c) fun p => p.2.room + 4 ≤ c.room := by
  unfold readHex4
  split_ifs
  · split
    · rename_i h₁ h₂ h₃ h₄ rest hrest
      split
      · refine .ok ?_
        obtain ⟨rest', position⟩ := c
        obtain rfl : rest' = h₁ :: h₂ :: h₃ :: h₄ :: rest := hrest
        have hs := And.intro h₁.utf8Size_pos (And.intro h₂.utf8Size_pos
          (And.intro h₃.utf8Size_pos h₄.utf8Size_pos))
        show byteCount rest + 4 ≤
          h₁.utf8Size + (h₂.utf8Size + (h₃.utf8Size + (h₄.utf8Size + byteCount rest)))
        omega
      · exact .error _
    · exact .error _
  · exact .error _

theorem expectInPair_weight (expected : Char) (c : Cursor) :
    Yields (expectInPair expected c) fun c' => c'.room ≤ c.room := by
  unfold expectInPair
  split
  · exact .error _
  · split_ifs
    · exact .ok c.room_advance_le
    · exact .error _

theorem readCodePoint_weight (c : Cursor) :
    Yields (readCodePoint c) fun p => p.1.utf8Size + p.2.room ≤ c.room := by
  refine (readHex4_weight c).bind fun ⟨n, c₁⟩ h₁ => ?_
  simp only at h₁ ⊢
  split_ifs
  · exact .error _
  · refine (expectInPair_weight '\\' c₁).bind fun c₂ h₂ => ?_
    refine (expectInPair_weight 'u' c₂).bind fun c₃ h₃ => ?_
    refine (readHex4_weight c₃).bind fun ⟨m, c₄⟩ h₄ => ?_
    simp only at h₄ ⊢
    split_ifs
    · refine .ok ?_
      have hsize := (Char.ofNat (0x10000 + (n - 0xd800) * 0x400 + (m - 0xdc00))).utf8Size_le_four
      simp only
      omega
    · exact .error _
  · refine .ok ?_
    have hsize := (Char.ofNat n).utf8Size_le_four
    simp only
    omega

theorem utf8Size_of_shortEscape? {d e : Char} (h : shortEscape? d = some e) :
    e.utf8Size ≤ d.utf8Size := by
  have hd := d.utf8Size_pos
  unfold shortEscape? at h
  split_ifs at h <;> obtain rfl := Option.some.inj h
  · exact Nat.le_refl _
  all_goals exact hd

theorem readEscape_weight (c : Cursor) :
    Yields (readEscape c) fun p => p.1.utf8Size + p.2.room ≤ c.room := by
  unfold readEscape
  split
  · exact .error _
  · rename_i d ds hrest
    have hadvance := Cursor.room_advance hrest
    split_ifs
    · refine (readCodePoint_weight c.advance).mono fun p hp => ?_
      omega
    · split
      · rename_i e he
        have hsize := utf8Size_of_shortEscape? he
        refine .ok ?_
        simp only
        omega
      · exact .error _

theorem readChars_weight (steps : List Char) (c : Cursor) :
    Yields (readChars steps c) fun p => byteCount p.1 + p.2.room ≤ c.room := by
  induction steps generalizing c with
  | nil => exact .error _
  | cons _ steps ih =>
      rw [readChars]
      split
      · exact .error _
      · rename_i d ds hrest
        have hadvance := Cursor.room_advance hrest
        split_ifs
        · refine .ok ?_
          simp only [byteCount]
          omega
        · refine (readEscape_weight c.advance).bind fun p hp => (ih p.2).bind fun q hq => .ok ?_
          simp only [byteCount]
          omega
        · exact .error _
        · refine (ih c.advance).bind fun q hq => .ok ?_
          simp only [byteCount]
          omega

theorem readString_weight (c : Cursor) :
    Yields (readString c) fun p => p.1.utf8ByteSize + p.2.room ≤ c.room := by
  refine (readChars_weight c.rest c).bind fun p hp => .ok ?_
  simp only [utf8ByteSize_ofList]
  exact hp

/-! ## Numbers and words -/

theorem readDigits_room (c : Cursor) : (readDigits c).2.room ≤ c.room :=
  Cursor.room_skipWhile_le Char.isDigit c

theorem readSign_room (c : Cursor) : (readSign c).2.room ≤ c.room := by
  unfold readSign
  split
  · exact c.room_advance_le
  · exact c.room_advance_le
  · exact Nat.le_refl _

theorem readWhole_room (c : Cursor) : Yields (readWhole c) fun p => p.2.room ≤ c.room := by
  unfold readWhole
  split
  · exact .error _
  · split_ifs
    · split
      · split_ifs
        · exact .error _
        · exact .ok c.room_advance_le
      · exact .ok c.room_advance_le
    · exact .ok (readDigits_room c)
    · exact .error _

theorem readFraction_room (c : Cursor) : Yields (readFraction c) fun p => p.2.room ≤ c.room := by
  unfold readFraction
  split
  · have hdigits := readDigits_room c.advance
    have hadvance := c.room_advance_le
    split
    · split_ifs <;> exact .error _
    · rename_i ds c' hread
      rw [hread] at hdigits
      exact .ok (Nat.le_trans hdigits hadvance)
  · exact .ok (Nat.le_refl _)

theorem scaled_room (sign : Bool) (significand : Nat) (exponent : Int) (c : Cursor) :
    Yields (scaled sign significand exponent c) fun p => p.2.room ≤ c.room := by
  unfold scaled
  split
  · exact .ok (Nat.le_refl _)
  · exact .error _

theorem readExponent_room (sign : Bool) (significand : Nat) (exponent : Int) (c : Cursor) :
    Yields (readExponent sign significand exponent c) fun p => p.2.room ≤ c.room := by
  have hsign := readSign_room c
  unfold readExponent
  simp only
  have hdigits := readDigits_room (readSign c).2
  split
  · split_ifs <;> exact .error _
  · rename_i ds behind _ hread
    rw [hread] at hdigits
    split
    · exact (scaled_room _ _ _ behind).le_trans (Nat.le_trans hdigits hsign)
    · split_ifs
      · exact .error _
      · exact .ok (Nat.le_trans hdigits hsign)

theorem integer_room (sign : Bool) (n : Nat) (c : Cursor) :
    Yields (integer sign n c) fun p => p.2.room ≤ c.room := by
  unfold integer
  split_ifs
  · exact .ok (Nat.le_refl _)
  · exact scaled_room _ _ _ c
  · exact .ok (Nat.le_refl _)

theorem readNumber_room (sign : Bool) (c : Cursor) :
    Yields (readNumber sign c) fun p => p.2.room ≤ c.room := by
  refine (readWhole_room c).bind fun ⟨whole, c₁⟩ h₁ => ?_
  refine (readFraction_room c₁).bind fun ⟨fraction, c₂⟩ h₂ => ?_
  have hle : c₂.room ≤ c.room := Nat.le_trans h₂ h₁
  have hadvance : c₂.advance.room ≤ c.room := Nat.le_trans c₂.room_advance_le hle
  simp only
  split
  · exact (readExponent_room _ _ _ _).le_trans hadvance
  · exact (readExponent_room _ _ _ _).le_trans hadvance
  · split_ifs
    · exact (scaled_room _ _ _ _).le_trans hle
    · exact (integer_room _ _ _).le_trans hle

theorem readWord_room (word : List Char) (c : Cursor) :
    Yields (readWord word c) fun c' => c'.room ≤ c.room := by
  induction word generalizing c with
  | nil => exact .ok (Nat.le_refl _)
  | cons w ws ih =>
      rw [readWord]
      split
      · exact .error _
      · split_ifs
        · exact (ih c.advance).le_trans c.room_advance_le
        · exact .error _

/-! ## Brackets -/

theorem nextElement_room (first : Bool) (c : Cursor) :
    Yields (nextElement first c) fun p => p.2.room ≤ c.room := by
  have hblank := c.room_skipBlank_le
  unfold nextElement
  simp only
  split
  · exact .error _
  · exact .ok hblank
  · split_ifs
    · exact .ok hblank
    · split
      · exact .error _
      · exact .error _
      · exact .ok (Nat.le_trans c.skipBlank.room_skipBlank_advance_le hblank)
    · exact .error _

/-- The bytes of a key, if there is another one. -/
def keyWeight (key : Option String) : Nat :=
  key.elim 0 String.utf8ByteSize

theorem readKey_weight (afterComma : Bool) (c : Cursor) :
    Yields (readKey afterComma c) fun p => keyWeight p.1 + p.2.room ≤ c.room := by
  unfold readKey
  split
  · exact .error _
  · split_ifs
    · refine (readString_weight c.advance).bind fun p hp => .ok ?_
      exact Nat.le_trans hp c.room_advance_le
    · exact .error _
    · exact .error _

theorem nextKey_weight (first : Bool) (c : Cursor) :
    Yields (nextKey first c) fun p => keyWeight p.1 + p.2.room ≤ c.room := by
  have hblank := c.room_skipBlank_le
  unfold nextKey
  simp only
  split
  · exact .error _
  · split_ifs
    · refine .ok ?_
      show 0 + c.skipBlank.room ≤ c.room
      omega
    · exact (readKey_weight false _).le_trans hblank
    · have hcomma := Nat.le_trans c.skipBlank.room_skipBlank_advance_le hblank
      exact (readKey_weight true _).le_trans hcomma
    · exact .error _

theorem readColon_room (c : Cursor) : Yields (readColon c) fun c' => c'.room ≤ c.room := by
  unfold readColon
  simp only
  split
  · exact .error _
  · exact .ok c.room_advance_skipBlank_le
  · exact .error _

section

variable {σ ε : Type} {fault : Error → ε} (weight : σ → Nat)

theorem foldElements_weight {step : σ → Cursor → Except ε (σ × Cursor)}
    (hstep : ∀ s c, Yields (step s c) fun p => weight p.1 + p.2.room ≤ weight s + c.room)
    (steps : List Char) (first : Bool) (s : σ) (c : Cursor) :
    Yields (foldElements fault step steps first s c)
      fun p => weight p.1 + p.2.room ≤ weight s + c.room := by
  induction steps generalizing first s c with
  | nil => exact .ok (Nat.le_refl _)
  | cons _ steps ih =>
      rw [foldElements]
      split
      · exact .error _
      · rename_i c' hnext
        exact .ok (Nat.add_le_add_left (nextElement_room first c _ hnext) _)
      · rename_i c' hnext
        have hroom : c'.room ≤ c.room := nextElement_room first c _ hnext
        split
        · exact .error _
        · rename_i s' c'' hread
          have hweight : weight s' + c''.room ≤ weight s + c'.room := hstep s c' _ hread
          exact (ih false s' c'').mono fun p hp => by omega

theorem foldMembers_weight {step : σ → String → Cursor → Except ε (σ × Cursor)}
    (hstep : ∀ s key c, Yields (step s key c)
      fun p => weight p.1 + p.2.room ≤ weight s + (key.utf8ByteSize + c.room))
    (steps : List Char) (first : Bool) (s : σ) (c : Cursor) :
    Yields (foldMembers fault step steps first s c)
      fun p => weight p.1 + p.2.room ≤ weight s + c.room := by
  induction steps generalizing first s c with
  | nil => exact .ok (Nat.le_refl _)
  | cons _ steps ih =>
      rw [foldMembers]
      split
      · exact .error _
      · rename_i c' hnext
        have hroom : 0 + c'.room ≤ c.room := nextKey_weight first c _ hnext
        refine .ok ?_
        simp only
        omega
      · rename_i key c' hnext
        have hroom : key.utf8ByteSize + c'.room ≤ c.room := nextKey_weight first c _ hnext
        split
        · exact .error _
        · rename_i s' c'' hread
          have hweight : weight s' + c''.room ≤ weight s + (key.utf8ByteSize + c'.room) :=
            hstep s key c' _ hread
          exact (ih false s' c'').mono fun p hp => by omega

end

/-! ## Values -/

namespace Value

mutual

/-- One for each pair of brackets, and the bytes of all texts. -/
def weight : Value → Nat
  | .null => 0
  | .bool _ => 0
  | .number _ => 0
  | .string s => s.utf8ByteSize
  | .array elements => 1 + weightOfElements elements
  | .object members => 1 + weightOfMembers members

def weightOfElements : List Value → Nat
  | [] => 0
  | v :: rest => weight v + weightOfElements rest

def weightOfMembers : List (String × Value) → Nat
  | [] => 0
  | (key, v) :: rest => key.utf8ByteSize + weight v + weightOfMembers rest

end

theorem weightOfElements_append (vs ws : List Value) :
    weightOfElements (vs ++ ws) = weightOfElements vs + weightOfElements ws := by
  induction vs with
  | nil => exact (Nat.zero_add _).symm
  | cons v rest ih => rw [List.cons_append, weightOfElements, ih, weightOfElements, ← Nat.add_assoc]

theorem weightOfMembers_append (ms ns : List (String × Value)) :
    weightOfMembers (ms ++ ns) = weightOfMembers ms + weightOfMembers ns := by
  induction ms with
  | nil => exact (Nat.zero_add _).symm
  | cons m rest ih => rw [List.cons_append, weightOfMembers, ih, weightOfMembers, ← Nat.add_assoc]

theorem weightOfElements_reverse (vs : List Value) :
    weightOfElements vs.reverse = weightOfElements vs := by
  induction vs with
  | nil => rfl
  | cons v rest ih =>
      rw [List.reverse_cons, weightOfElements_append, ih, weightOfElements, weightOfElements,
        weightOfElements, Nat.add_zero, Nat.add_comm]

theorem weightOfMembers_reverse (ms : List (String × Value)) :
    weightOfMembers ms.reverse = weightOfMembers ms := by
  induction ms with
  | nil => rfl
  | cons m rest ih =>
      rw [List.reverse_cons, weightOfMembers_append, ih, weightOfMembers, weightOfMembers,
        weightOfMembers, Nat.add_zero, Nat.add_comm]

end Value

section

variable {nested : ValueReader}
  (hnested : ∀ c, Yields (nested c) fun p => p.1.weight + p.2.room ≤ c.room)

include hnested

theorem readElements_weight (c : Cursor) :
    Yields (readElements nested c) fun p => p.1.weight + p.2.room ≤ 1 + c.room := by
  refine (foldElements_weight Value.weightOfElements (fun vs c => ?_)
    (stepsFrom c) true [] c).bind fun ⟨vs, c'⟩ hfold => .ok ?_
  · refine (hnested c).bind fun p hp => .ok ?_
    simp only [Value.weightOfElements]
    omega
  · have hadvance := c'.room_advance_le
    simp only [Value.weightOfElements, Value.weight, Value.weightOfElements_reverse] at hfold ⊢
    omega

theorem readMembers_weight (c : Cursor) :
    Yields (readMembers nested c) fun p => p.1.weight + p.2.room ≤ 1 + c.room := by
  refine (foldMembers_weight Value.weightOfMembers (fun ms key c => ?_)
    (stepsFrom c) true [] c).bind fun ⟨ms, c'⟩ hfold => .ok ?_
  · refine (readColon_room c).bind fun c₁ hcolon => (hnested c₁).bind fun p hp => .ok ?_
    simp only [Value.weightOfMembers]
    omega
  · have hadvance := c'.room_advance_le
    simp only [Value.weightOfMembers, Value.weight, Value.weightOfMembers_reverse] at hfold ⊢
    omega

end

theorem readWord_weight (word : List Char) {v : Value} (hv : v.weight = 0) (c : Cursor) :
    Yields (do return (v, ← readWord word c)) fun p => p.1.weight + p.2.room ≤ c.room := by
  refine (readWord_room word c).bind fun c' hc => .ok ?_
  simp only [hv]
  omega

theorem readWith_weight {nested : Option ValueReader}
    (hnested : ∀ read, nested = some read →
      ∀ c, Yields (read c) fun p => p.1.weight + p.2.room ≤ c.room) (c : Cursor) :
    Yields (readWith nested c) fun p => p.1.weight + p.2.room ≤ c.room := by
  have hblank := c.room_skipBlank_le
  unfold readWith
  simp only
  split
  · exact .error _
  · rename_i d ds hrest
    have hadvance := Cursor.room_advance_lt hrest
    have hword := c.room_advance_skipBlank_le
    refine .ite (fun _ => (readWord_weight _ rfl _).le_trans hword) fun _ => ?_
    refine .ite (fun _ => (readWord_weight _ rfl _).le_trans hword) fun _ => ?_
    refine .ite (fun _ => (readWord_weight _ rfl _).le_trans hword) fun _ => ?_
    refine .ite (fun _ => ?_) fun _ => ?_
    · refine (readString_weight _).bind fun p hp => .ok ?_
      simp only [Value.weight]
      omega
    refine .ite (fun _ => ?_) fun _ => ?_
    · refine (readNumber_room _ _).bind fun p hp => .ok ?_
      simp only [Value.weight]
      omega
    refine .ite (fun _ => ?_) fun _ => ?_
    · refine (readNumber_room _ _).bind fun p hp => .ok ?_
      simp only [Value.weight]
      omega
    refine .ite (fun _ => ?_) fun _ => .error _
    split
    · exact .error _
    · refine .ite (fun _ => ?_) fun _ => ?_
      · exact (readElements_weight (hnested _ rfl) _).mono fun p hp => by omega
      · exact (readMembers_weight (hnested _ rfl) _).mono fun p hp => by omega

theorem readValue_weight (depth : Nat) (c : Cursor) :
    Yields (readValue depth c) fun p => p.1.weight + p.2.room ≤ c.room := by
  induction depth generalizing c with
  | zero =>
      refine readWith_weight (fun read hread => ?_) c
      exact nomatch hread
  | succ depth ih =>
      refine readWith_weight (fun read hread => ?_) c
      rw [← Option.some.inj hread]
      exact ih

/-! ## Values that are skipped -/

theorem skipWhole_room (c : Cursor) : Yields (skipWhole c) fun c' => c'.room ≤ c.room := by
  unfold skipWhole
  split
  · exact .error _
  · split_ifs
    · split
      · split_ifs
        · exact .error _
        · exact .ok c.room_advance_le
      · exact .ok c.room_advance_le
    · exact .ok (Cursor.room_skipWhile_le Char.isDigit c)
    · exact .error _

theorem skipDigits_room (c : Cursor) : Yields (skipDigits c) fun c' => c'.room ≤ c.room := by
  unfold skipDigits
  split
  · split_ifs
    · exact .ok (Cursor.room_skipWhile_le Char.isDigit c)
    · exact .error _
  · exact .error _

theorem skipFraction_room (c : Cursor) : Yields (skipFraction c) fun c' => c'.room ≤ c.room := by
  unfold skipFraction
  split
  · exact (skipDigits_room _).le_trans c.room_advance_le
  · exact .ok (Nat.le_refl _)

theorem skipExponent_room (c : Cursor) : Yields (skipExponent c) fun c' => c'.room ≤ c.room := by
  have hsign := Nat.le_trans (readSign_room c.advance) c.room_advance_le
  unfold skipExponent
  split
  · exact (skipDigits_room _).le_trans hsign
  · exact (skipDigits_room _).le_trans hsign
  · exact .ok (Nat.le_refl _)

theorem skipNumber_room (c : Cursor) : Yields (skipNumber c) fun c' => c'.room ≤ c.room := by
  refine (skipWhole_room c).bind fun c₁ h₁ => (skipFraction_room c₁).bind fun c₂ h₂ => ?_
  exact (skipExponent_room c₂).le_trans (Nat.le_trans h₂ h₁)

theorem skipEscape_room (c : Cursor) : Yields (skipEscape c) fun c' => c'.room ≤ c.room := by
  unfold skipEscape
  split
  · exact .error _
  · split_ifs
    · refine (readHex4_weight c.advance).bind fun p hp => .ok ?_
      exact Nat.le_trans (Nat.le_of_add_right_le hp) c.room_advance_le
    · exact .ok c.room_advance_le
    · exact .error _

theorem skipChars_room (steps : List Char) (c : Cursor) :
    Yields (skipChars steps c) fun c' => c'.room ≤ c.room := by
  induction steps generalizing c with
  | nil => exact .error _
  | cons _ steps ih =>
      have hadvance := c.room_advance_le
      rw [skipChars]
      split
      · exact .error _
      · split_ifs
        · exact .ok hadvance
        · refine (skipEscape_room c.advance).bind fun c₁ h₁ => ?_
          exact (ih c₁).le_trans (Nat.le_trans h₁ hadvance)
        · exact .error _
        · exact (ih c.advance).le_trans hadvance

theorem skipString_room (c : Cursor) : Yields (skipString c) fun c' => c'.room ≤ c.room :=
  skipChars_room c.rest c

theorem skipKey_room (c : Cursor) : Yields (skipKey c) fun c' => c'.room ≤ c.room := by
  unfold skipKey
  split
  · exact .error _
  · exact (skipString_room _).le_trans c.room_advance_le
  · exact .error _

/-- The readers with one fuel; they call each other with less, so they are dealt with at once. -/
structure Shrinks (fuel : Nat) : Prop where
  value : ∀ c, Yields (skipValueIn fuel c) fun c' => c'.room ≤ c.room
  elements : ∀ c, Yields (skipElementsIn fuel c) fun c' => c'.room ≤ c.room
  members : ∀ c, Yields (skipMembersIn fuel c) fun c' => c'.room ≤ c.room

section

variable {fuel : Nat} (h : Shrinks fuel)

include h

theorem skipValueIn_room (c : Cursor) :
    Yields (skipValueIn (fuel + 1) c) fun c' => c'.room ≤ c.room := by
  have hblank := c.room_skipBlank_le
  have hadvance := c.room_advance_skipBlank_le
  have hinside := Nat.le_trans c.skipBlank.advance.room_skipBlank_le hadvance
  have hclose := Nat.le_trans c.skipBlank.advance.room_advance_skipBlank_le hadvance
  rw [skipValueIn]
  simp only
  split
  · exact .error _
  · refine .ite (fun _ => (readWord_room _ _).le_trans hadvance) fun _ => ?_
    refine .ite (fun _ => (readWord_room _ _).le_trans hadvance) fun _ => ?_
    refine .ite (fun _ => (readWord_room _ _).le_trans hadvance) fun _ => ?_
    refine .ite (fun _ => (skipString_room _).le_trans hadvance) fun _ => ?_
    refine .ite (fun _ => (skipNumber_room _).le_trans hadvance) fun _ => ?_
    refine .ite (fun _ => (skipNumber_room _).le_trans hblank) fun _ => ?_
    refine .ite (fun _ => ?_) fun _ => .ite (fun _ => ?_) fun _ => .error _
    · split
      · exact .error _
      · exact .ok hclose
      · exact (h.elements _).le_trans hinside
    · split
      · exact .error _
      · exact .ok hclose
      · exact (h.members _).le_trans hinside

theorem skipElementsIn_room (c : Cursor) :
    Yields (skipElementsIn (fuel + 1) c) fun c' => c'.room ≤ c.room := by
  rw [skipElementsIn]
  refine (h.value c).bind fun c₁ h₁ => ?_
  have hnext := Nat.le_trans c₁.room_advance_skipBlank_le h₁
  simp only
  split
  · exact .error _
  · exact (h.elements _).le_trans hnext
  · exact .ok hnext
  · exact .error _

theorem skipMembersIn_room (c : Cursor) :
    Yields (skipMembersIn (fuel + 1) c) fun c' => c'.room ≤ c.room := by
  rw [skipMembersIn]
  refine (skipKey_room c.skipBlank).bind fun c₁ h₁ => ?_
  refine (readColon_room c₁).bind fun c₂ h₂ => (h.value c₂).bind fun c₃ h₃ => ?_
  have hvalue := Nat.le_trans h₃ (Nat.le_trans h₂ (Nat.le_trans h₁ c.room_skipBlank_le))
  have hnext := Nat.le_trans c₃.room_advance_skipBlank_le hvalue
  simp only
  split
  · exact .error _
  · exact (h.members _).le_trans hnext
  · exact .ok hnext
  · exact .error _

end

theorem shrinks (fuel : Nat) : Shrinks fuel := by
  induction fuel with
  | zero => exact ⟨fun _ => .ok (Nat.le_refl _), fun _ => .ok (Nat.le_refl _),
      fun _ => .ok (Nat.le_refl _)⟩
  | succ fuel ih => exact ⟨skipValueIn_room ih, skipElementsIn_room ih, skipMembersIn_room ih⟩

theorem skipValue_room (c : Cursor) : Yields (skipValue c) fun c' => c'.room ≤ c.room :=
  (shrinks (2 * c.rest.length + 2)).value c

end Json
end GrammarRecords
