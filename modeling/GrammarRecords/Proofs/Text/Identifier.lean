/-
Identifiers under case conversion.

Both conversions only ever write letters, digits and underscores when they read
nothing else, so the question is what comes first.  Snake case keeps the first
character, and with it the identifier; the one that is an underscore and nothing
else stays that.  Pascal case drops the underscores in front: what it gives is
an identifier exactly if the first character behind them is a letter.
-/
import GrammarRecords.Proofs.Text.Case

namespace GrammarRecords
namespace Text

def isNameStart (c : Char) : Bool :=
  c.isAlpha || c == '_'

def isNameChar (c : Char) : Bool :=
  c.isAlphanum || c == '_'

/-- A letter or an underscore, and then letters, digits and underscores. -/
def IsIdentifier (s : String) : Prop :=
  s.toList.head?.any isNameStart = true ∧ s.toList.all isNameChar = true

instance (s : String) : Decidable (IsIdentifier s) :=
  inferInstanceAs (Decidable (_ ∧ _))

/-- The first character that is no underscore is there and is a letter. -/
def LeadsWithLetter (s : String) : Prop :=
  (s.toList.dropWhile (· == '_')).head?.any Char.isAlpha = true

instance (s : String) : Decidable (LeadsWithLetter s) :=
  inferInstanceAs (Decidable (_ = true))

/-! ## Characters -/

theorem isNameChar_of_isDigit {c : Char} (h : c.isDigit = true) : isNameChar c = true := by
  rw [isNameChar, Char.isAlphanum, h, Bool.or_true, Bool.true_or]

theorem isNameStart_of_isDigit {c : Char} (h : c.isDigit = true) : isNameStart c = false := by
  rw [isNameStart, isAlpha_of_isDigit h, Bool.false_or, beq_eq_false_iff_ne]
  rintro rfl
  exact absurd h (by decide)

theorem isAlphanum_toUpper {c : Char} (h : c.isAlphanum = true) : c.toUpper.isAlphanum = true := by
  rw [Char.isAlphanum, Bool.or_eq_true] at h ⊢
  rcases h with hletter | hdigit
  · exact Or.inl ((isAlpha_toUpper c).trans hletter)
  · exact Or.inr ((toUpper_of_isDigit hdigit).symm ▸ hdigit)

theorem isAlphanum_toLower {c : Char} (h : c.isAlphanum = true) : c.toLower.isAlphanum = true := by
  rw [Char.isAlphanum, Bool.or_eq_true] at h ⊢
  rcases h with hletter | hdigit
  · exact Or.inl ((isAlpha_toLower c).trans hletter)
  · exact Or.inr ((toLower_of_isDigit hdigit).symm ▸ hdigit)

theorem isNameChar_of_isAlphanum {c : Char} (h : c.isAlphanum = true) : isNameChar c = true := by
  rw [isNameChar, h, Bool.true_or]

theorem isNameStart_of_isAlphanum {c : Char} (h : c.isAlphanum = true) :
    isNameStart c = c.isAlpha := by
  have hline : (c == '_') = false := by
    rw [beq_eq_false_iff_ne]
    rintro rfl
    exact absurd h (by decide)
  rw [isNameStart, hline, Bool.or_false]

theorem isNameStart_toLower {c : Char} (h : isNameStart c = true) :
    isNameStart c.toLower = true := by
  rw [isNameStart, Bool.or_eq_true] at h ⊢
  rcases h with hletter | hline
  · exact Or.inl ((isAlpha_toLower c).trans hletter)
  · refine Or.inr ?_
    rw [beq_iff_eq.mp hline]
    rfl

/-- Of the separators only the underscore can stand in a name. -/
theorem dash_or_dot_of_isNameChar {c : Char} (h : isNameChar c = true) :
    (c == '-' || c == '.') = false := by
  have hne : ∀ x : Char, isNameChar x = false → (c == x) = false := by
    intro x hx
    rw [beq_eq_false_iff_ne]
    rintro rfl
    rw [hx] at h
    exact Bool.noConfusion h
  rw [hne '-' (by decide), hne '.' (by decide)]
  rfl

theorem isSeparator_of_isNameChar {c : Char} (h : isNameChar c = true) :
    isSeparator c = (c == '_') := by
  rw [isSeparator, Bool.or_assoc, dash_or_dot_of_isNameChar h, Bool.or_false]

section

variable {cs : List Char} (hcs : ∀ c ∈ cs, isNameChar c = true)

include hcs

theorem isAlphanum_of_mem {c : Char} (hc : c ∈ cs) (hne : (c == '_') = false) :
    c.isAlphanum = true := by
  have h := hcs c hc
  rw [isNameChar, hne, Bool.or_false] at h
  exact h

/-! ## Pascal case -/

theorem isAlphanum_of_mem_joinWords (atStart : Bool) :
    ∀ c ∈ joinWords atStart cs, c.isAlphanum = true := by
  induction cs generalizing atStart with
  | nil => exact fun c hc => absurd hc List.not_mem_nil
  | cons d ds ih =>
      have hds := ih fun c hc => hcs c (List.mem_cons_of_mem d hc)
      rw [joinWords, isSeparator_of_isNameChar (hcs d List.mem_cons_self)]
      cases hd : d == '_' with
      | true => exact hds true
      | false =>
          have hself := isAlphanum_of_mem hcs List.mem_cons_self hd
          refine List.forall_mem_cons.mpr ⟨?_, hds false⟩
          cases atStart with
          | true => exact isAlphanum_toUpper hself
          | false => exact isAlphanum_toLower hself

/-- Humps leave no separators. -/
theorem isAlphanum_of_hasHumps (h : hasHumps cs = true) : ∀ c ∈ cs, c.isAlphanum = true := by
  rw [hasHumps, Bool.and_eq_true, Bool.and_eq_true, Bool.not_eq_true'] at h
  intro c hc
  refine isAlphanum_of_mem hcs hc ?_
  rw [← isSeparator_of_isNameChar (hcs c hc), Bool.eq_false_iff]
  exact List.any_eq_false.mp h.1.1 c hc

theorem isAlphanum_of_mem_pascalChars : ∀ c ∈ pascalChars cs, c.isAlphanum = true := by
  unfold pascalChars
  split
  · rename_i hhumps
    have hall := isAlphanum_of_hasHumps hcs hhumps
    cases cs with
    | nil => exact fun c hc => absurd hc List.not_mem_nil
    | cons d ds =>
        obtain ⟨hd, hds⟩ := List.forall_mem_cons.mp hall
        exact List.forall_mem_cons.mpr ⟨isAlphanum_toUpper hd, hds⟩
  · exact isAlphanum_of_mem_joinWords hcs true

theorem head?_joinWords :
    (joinWords true cs).head? = (cs.dropWhile (· == '_')).head?.map Char.toUpper := by
  induction cs with
  | nil => rfl
  | cons d ds ih =>
      rw [joinWords, isSeparator_of_isNameChar (hcs d List.mem_cons_self), List.dropWhile_cons]
      cases d == '_' with
      | true => exact ih fun c hc => hcs c (List.mem_cons_of_mem d hc)
      | false => rfl

theorem head?_pascalChars :
    (pascalChars cs).head? = (cs.dropWhile (· == '_')).head?.map Char.toUpper := by
  unfold pascalChars
  split
  · rename_i hhumps
    cases cs with
    | nil => rfl
    | cons d ds =>
        have hd : (d == '_') = false := by
          rw [beq_eq_false_iff_ne]
          rintro rfl
          exact absurd (isAlphanum_of_hasHumps hcs hhumps '_' List.mem_cons_self) (by decide)
        rw [List.dropWhile_cons, hd]
        rfl
  · exact head?_joinWords hcs

/-! ## Snake case -/

theorem isNameChar_of_mem_snakeFrom (before : Option Char) (underscored : Bool) :
    ∀ c ∈ snakeFrom before underscored cs, isNameChar c = true := by
  induction cs generalizing before underscored with
  | nil => exact fun c hc => absurd hc List.not_mem_nil
  | cons d ds ih =>
      have hds := ih fun c hc => hcs c (List.mem_cons_of_mem d hc)
      have hd := hcs d List.mem_cons_self
      have hlower : isNameChar d.toLower = true := by
        rw [isNameChar, Bool.or_eq_true] at hd ⊢
        rcases hd with halphanum | hline
        · exact Or.inl (isAlphanum_toLower halphanum)
        · refine Or.inr ?_
          rw [beq_iff_eq.mp hline]
          rfl
      rw [snakeFrom]
      split_ifs
      · exact hds _ _
      · exact List.forall_mem_cons.mpr ⟨rfl, hds _ _⟩
      · exact List.forall_mem_cons.mpr ⟨hd, hds _ _⟩
      · exact List.forall_mem_cons.mpr ⟨rfl, List.forall_mem_cons.mpr ⟨hlower, hds _ _⟩⟩
      · exact List.forall_mem_cons.mpr ⟨hlower, hds _ _⟩

/-- No character is dropped, since there is no separator that could be merged with another. -/
theorem length_le_length_snakeFrom (before : Option Char) (underscored : Bool) :
    cs.length ≤ (snakeFrom before underscored cs).length := by
  induction cs generalizing before underscored with
  | nil => exact Nat.le_refl 0
  | cons d ds ih =>
      have hds := ih fun c hc => hcs c (List.mem_cons_of_mem d hc)
      rw [snakeFrom, dash_or_dot_of_isNameChar (hcs d List.mem_cons_self),
        if_neg Bool.false_ne_true]
      split_ifs
      · have hrest := hds (some d) (d == '_')
        simp only [List.length_cons]
        omega
      · have hrest := hds (some d) false
        simp only [List.length_cons]
        omega
      · have hrest := hds (some d) false
        simp only [List.length_cons]
        omega

/-- At the start there is nothing that a word could end. -/
theorem head?_snakeChars : (snakeChars cs).head? = cs.head?.map Char.toLower := by
  cases cs with
  | nil => rfl
  | cons d ds =>
      rw [snakeChars, snakeFrom, dash_or_dot_of_isNameChar (hcs d List.mem_cons_self),
        if_neg Bool.false_ne_true]
      cases hupper : d.isUpper with
      | true => rfl
      | false => exact congrArg some (toLower_of_not_isUpper hupper).symm

end

/-! ## Identifiers -/

theorem IsIdentifier.isNameChar_of_mem {s : String} (h : IsIdentifier s) :
    ∀ c ∈ s.toList, isNameChar c = true :=
  List.all_eq_true.mp h.2

theorem isAlphanum_of_mem_pascalCase {s : String} (h : IsIdentifier s) :
    ∀ c ∈ (pascalCase s).toList, c.isAlphanum = true := by
  rw [pascalCase, String.toList_ofList]
  exact isAlphanum_of_mem_pascalChars h.isNameChar_of_mem

theorem isIdentifier_pascalCase_iff {s : String} (h : IsIdentifier s) :
    IsIdentifier (pascalCase s) ↔ LeadsWithLetter s := by
  have hchars := h.isNameChar_of_mem
  have hall : (pascalCase s).toList.all isNameChar = true :=
    List.all_eq_true.mpr fun c hc => isNameChar_of_isAlphanum (isAlphanum_of_mem_pascalCase h c hc)
  unfold IsIdentifier LeadsWithLetter
  rw [and_iff_left hall, pascalCase, String.toList_ofList, head?_pascalChars hchars]
  cases hfirst : s.toList.dropWhile (· == '_') with
  | nil => exact Iff.rfl
  | cons d ds =>
      have hline : (d == '_') = false := by
        have hnot := List.head?_dropWhile_not (· == '_') s.toList
        rw [hfirst] at hnot
        exact hnot
      have hmem : d ∈ s.toList := by
        refine (List.dropWhile_sublist (· == '_')).subset ?_
        rw [hfirst]
        exact List.mem_cons_self
      show isNameStart d.toUpper = true ↔ d.isAlpha = true
      rw [isNameStart_of_isAlphanum (isAlphanum_toUpper (isAlphanum_of_mem hchars hmem hline)),
        isAlpha_toUpper]

theorem isIdentifier_snakeCase {s : String} (h : IsIdentifier s) : IsIdentifier (snakeCase s) := by
  refine ⟨?_, ?_⟩
  · rw [snakeCase, String.toList_ofList, head?_snakeChars h.isNameChar_of_mem]
    have hfirst := h.1
    cases hhead : s.toList.head? with
    | none =>
        rw [hhead] at hfirst
        exact hfirst
    | some d =>
        rw [hhead] at hfirst
        exact isNameStart_toLower hfirst
  · rw [snakeCase, String.toList_ofList]
    exact List.all_eq_true.mpr (isNameChar_of_mem_snakeFrom h.isNameChar_of_mem none false)

/-- A single character is not lost, and a letter does not become an underscore. -/
theorem snakeCase_eq_underscore_iff {s : String} (h : IsIdentifier s) :
    snakeCase s = "_" ↔ s = "_" := by
  constructor
  · intro he
    have hchars : snakeChars s.toList = ['_'] := by
      rw [← String.toList_ofList (l := snakeChars s.toList)]
      exact congrArg String.toList he
    have hlength : s.toList.length ≤ 1 := by
      have hle := length_le_length_snakeFrom h.isNameChar_of_mem none false
      rw [← snakeChars, hchars] at hle
      exact hle
    have hhead := head?_snakeChars h.isNameChar_of_mem
    rw [hchars] at hhead
    refine String.toList_inj.mp ?_
    cases hs : s.toList with
    | nil =>
        rw [hs] at hhead
        exact absurd hhead (Option.some_ne_none '_')
    | cons d rest =>
        rw [hs] at hhead hlength
        have hrest : rest = [] :=
          List.length_eq_zero_iff.mp (Nat.le_zero.mp (Nat.le_of_succ_le_succ hlength))
        have hlower : '_' = d.toLower := Option.some.inj hhead
        have hstart : isNameStart d = true := by
          have hfirst := h.1
          rw [hs] at hfirst
          exact hfirst
        rw [isNameStart, ← isAlpha_toLower, ← hlower] at hstart
        rw [beq_iff_eq.mp hstart, hrest]
        rfl
  · rintro rfl
    decide

theorem isIdentifier_of_letters {s : String} (hletters : ∀ c ∈ s.toList, c.isAlpha = true)
    (hne : s.toList ≠ []) : IsIdentifier s := by
  constructor
  · obtain ⟨c, cs, hs⟩ := List.exists_cons_of_ne_nil hne
    rw [hs] at hletters ⊢
    show (c.isAlpha || c == '_') = true
    rw [hletters c List.mem_cons_self, Bool.true_or]
  · refine List.all_eq_true.mpr fun c hc => ?_
    rw [isNameChar, Char.isAlphanum, hletters c hc, Bool.true_or, Bool.true_or]

theorem IsIdentifier.append {s text : String} (h : IsIdentifier s)
    (htext : text.toList.all isNameChar = true) : IsIdentifier (s ++ text) := by
  unfold IsIdentifier at h ⊢
  rw [String.toList_append, List.all_append, h.2, htext]
  cases hs : s.toList with
  | nil => rw [hs] at h; exact absurd h.1 Bool.false_ne_true
  | cons c cs => rw [hs] at h; exact ⟨h.1, rfl⟩

theorem isIdentifier_numbered_iff {base : String} {n : Nat} :
    IsIdentifier (Names.numbered base n) ↔ IsIdentifier base := by
  have hdigits : (Names.suffix n).toList.all isNameChar = true :=
    List.all_eq_true.mpr fun c hc => isNameChar_of_isDigit (Names.isDigit_of_mem_suffix hc)
  unfold IsIdentifier
  rw [Names.numbered_eq, String.toList_append, List.all_append, hdigits, Bool.and_true]
  cases base.toList with
  | nil =>
      refine and_congr_left fun _ => iff_of_false ?_ Bool.false_ne_true
      -- Without a base a name starts with a digit, or there is none.
      rw [List.nil_append]
      cases hsuffix : (Names.suffix n).toList with
      | nil => exact Bool.false_ne_true
      | cons d ds =>
          have hd : d.isDigit = true :=
            Names.isDigit_of_mem_suffix (hsuffix ▸ List.mem_cons_self)
          show ¬ isNameStart d = true
          rw [isNameStart_of_isDigit hd]
          exact Bool.false_ne_true
  | cons d ds => exact Iff.rfl

end Text
end GrammarRecords
