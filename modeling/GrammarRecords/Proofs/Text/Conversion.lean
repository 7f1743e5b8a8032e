/-
What conversion keeps, and what it does to a converted name.

A conversion changes the case of letters and the separators between words.
`folded` forgets both, so a text and its conversions are folded to one text: no
other character is lost, doubled or moved.

Snake case writes only characters that it would copy, hence it leaves a
converted name as it is.  Pascal case need not: a name without small letters is
read as a word in capitals, and so is `ID`, whether it was written in this way or
comes from `i_d`.  `pascalCase_twice` says that names in capitals are the only
exception, and that a third conversion changes nothing.
-/
import GrammarRecords.Proofs.Text.Case

namespace GrammarRecords
namespace Text

/-- The characters of the words, in lower case. -/
def foldedChars (cs : List Char) : List Char :=
  (cs.filter fun c => !isSeparator c).map Char.toLower

def folded (s : String) : String :=
  String.ofList (foldedChars s.toList)

/-- Snake case copies everything but capitals and the two separators that it replaces. -/
def isSnakeChar (c : Char) : Bool :=
  !(c == '-' || c == '.') && !c.isUpper

/-- No small letter, and a capital behind the first character. -/
def inCapitals (cs : List Char) : Bool :=
  !cs.any Char.isLower && cs.tail.any Char.isUpper

/-! ## Characters -/

theorem isSeparator_toUpper (c : Char) : isSeparator c.toUpper = isSeparator c := by
  by_cases h : c.isAlpha = true
  · rw [isSeparator_of_isAlpha h, isSeparator_of_isAlpha ((isAlpha_toUpper c).trans h)]
  · have hlower : c.isLower = false := (Bool.or_eq_false_iff.mp (Bool.eq_false_iff.mpr h)).2
    rw [toUpper_of_not_isLower hlower]

theorem isSeparator_toLower (c : Char) : isSeparator c.toLower = isSeparator c := by
  by_cases h : c.isAlpha = true
  · rw [isSeparator_of_isAlpha h, isSeparator_of_isAlpha ((isAlpha_toLower c).trans h)]
  · have hupper : c.isUpper = false := (Bool.or_eq_false_iff.mp (Bool.eq_false_iff.mpr h)).1
    rw [toLower_of_not_isUpper hupper]

theorem isSnakeChar_toLower {c : Char} (h : isSeparator c = false) :
    isSnakeChar c.toLower = true := by
  rw [← isSeparator_toLower c, isSeparator, Bool.or_assoc, Bool.or_eq_false_iff] at h
  rw [isSnakeChar, h.2, isUpper_toLower]
  rfl

/-! ## Folding -/

theorem foldedChars_cons_of_isSeparator {c : Char} (h : isSeparator c = true) (cs : List Char) :
    foldedChars (c :: cs) = foldedChars cs := by
  rw [foldedChars, List.filter_cons_of_neg (by rw [h]; decide), foldedChars]

/-- Characters are folded to the same if only their case differs. -/
theorem foldedChars_cons_congr {c d : Char} {cs ds : List Char}
    (hseparator : isSeparator c = isSeparator d) (hcase : c.toLower = d.toLower)
    (hrest : foldedChars cs = foldedChars ds) : foldedChars (c :: cs) = foldedChars (d :: ds) := by
  cases h : isSeparator d with
  | true =>
      rw [foldedChars_cons_of_isSeparator (hseparator.trans h), foldedChars_cons_of_isSeparator h,
        hrest]
  | false =>
      unfold foldedChars at hrest ⊢
      rw [List.filter_cons_of_pos (by rw [hseparator, h]; rfl),
        List.filter_cons_of_pos (by rw [h]; rfl), List.map_cons, List.map_cons, hcase, hrest]

theorem foldedChars_joinWords (atStart : Bool) (cs : List Char) :
    foldedChars (joinWords atStart cs) = foldedChars cs := by
  induction cs generalizing atStart with
  | nil => rfl
  | cons c cs ih =>
      rw [joinWords]
      cases h : isSeparator c with
      | true => exact (ih true).trans (foldedChars_cons_of_isSeparator h cs).symm
      | false =>
          cases atStart with
          | true =>
              exact foldedChars_cons_congr (isSeparator_toUpper c)
                (toLower_toUpper c) (ih false)
          | false =>
              exact foldedChars_cons_congr (isSeparator_toLower c)
                (toLower_toLower c) (ih false)

theorem foldedChars_pascalChars (cs : List Char) :
    foldedChars (pascalChars cs) = foldedChars cs := by
  unfold pascalChars
  split
  · cases cs with
    | nil => rfl
    | cons c cs =>
        exact foldedChars_cons_congr (isSeparator_toUpper c) (toLower_toUpper c) rfl
  · exact foldedChars_joinWords true cs

/-- The underscores that snake case adds, drops or puts for a separator are not there. -/
theorem foldedChars_snakeFrom (before : Option Char) (underscored : Bool) (cs : List Char) :
    foldedChars (snakeFrom before underscored cs) = foldedChars cs := by
  induction cs generalizing before underscored with
  | nil => rfl
  | cons c cs ih =>
      have hunderscore : ∀ ds, foldedChars ('_' :: ds) = foldedChars ds :=
        foldedChars_cons_of_isSeparator rfl
      have hlower : ∀ ds, foldedChars ds = foldedChars cs →
          foldedChars (c.toLower :: ds) = foldedChars (c :: cs) := fun _ =>
        foldedChars_cons_congr (isSeparator_toLower c) (toLower_toLower c)
      -- A separator is replaced, or a character copied, or a capital lowered.
      rw [snakeFrom]
      split
      · rename_i hreplaced
        have hseparator : isSeparator c = true := by
          rw [isSeparator, Bool.or_assoc, hreplaced, Bool.or_true]
        rw [foldedChars_cons_of_isSeparator hseparator]
        split
        · exact ih (some c) true
        · rw [hunderscore]
          exact ih (some c) true
      · split
        · exact foldedChars_cons_congr rfl rfl (ih (some c) (c == '_'))
        · split
          · rw [hunderscore]
            exact hlower _ (ih (some c) false)
          · exact hlower _ (ih (some c) false)

/-! ## Characters of converted names -/

theorem any_isSeparator_joinWords (atStart : Bool) (cs : List Char) :
    (joinWords atStart cs).any isSeparator = false := by
  induction cs generalizing atStart with
  | nil => rfl
  | cons c cs ih =>
      rw [joinWords]
      cases h : isSeparator c with
      | true => exact ih true
      | false =>
          refine Bool.or_eq_false_iff.mpr ⟨?_, ih false⟩
          cases atStart with
          | true => exact (isSeparator_toUpper c).trans h
          | false => exact (isSeparator_toLower c).trans h

theorem any_isSeparator_pascalChars (cs : List Char) :
    (pascalChars cs).any isSeparator = false := by
  unfold pascalChars
  split
  · rename_i hhumps
    rw [hasHumps, Bool.and_eq_true, Bool.and_eq_true, Bool.not_eq_true'] at hhumps
    cases cs with
    | nil => rfl
    | cons c cs =>
        obtain ⟨hfirst, hrest⟩ := Bool.or_eq_false_iff.mp hhumps.1.1
        exact Bool.or_eq_false_iff.mpr ⟨(isSeparator_toUpper c).trans hfirst, hrest⟩
  · exact any_isSeparator_joinWords true cs

theorem all_isSnakeChar_snakeFrom (before : Option Char) (underscored : Bool) (cs : List Char) :
    (snakeFrom before underscored cs).all isSnakeChar = true := by
  induction cs generalizing before underscored with
  | nil => rfl
  | cons c cs ih =>
      rw [snakeFrom]
      split
      · split
        · exact ih (some c) true
        · exact Bool.and_eq_true_iff.mpr ⟨rfl, ih (some c) true⟩
      · rename_i hkept
        split
        · rename_i hupper
          refine Bool.and_eq_true_iff.mpr ⟨?_, ih (some c) (c == '_')⟩
          rw [isSnakeChar, hupper, Bool.eq_false_iff.mpr hkept]
          rfl
        · rename_i hupper
          have hletter : c.isAlpha = true := by
            rw [Bool.not_eq_true, Bool.not_eq_false'] at hupper
            exact Bool.or_eq_true_iff.mpr (Or.inl hupper)
          have hlower := isSnakeChar_toLower (isSeparator_of_isAlpha hletter)
          split
          · exact Bool.and_eq_true_iff.mpr
              ⟨rfl, Bool.and_eq_true_iff.mpr ⟨hlower, ih (some c) false⟩⟩
          · exact Bool.and_eq_true_iff.mpr ⟨hlower, ih (some c) false⟩

theorem snakeFrom_of_all_isSnakeChar (before : Option Char) (underscored : Bool) {cs : List Char}
    (h : cs.all isSnakeChar = true) : snakeFrom before underscored cs = cs := by
  induction cs generalizing before underscored with
  | nil => rfl
  | cons c cs ih =>
      obtain ⟨hfirst, hrest⟩ := Bool.and_eq_true_iff.mp h
      obtain ⟨hkept, hupper⟩ := Bool.and_eq_true_iff.mp hfirst
      rw [Bool.not_eq_true'] at hkept
      rw [snakeFrom, hkept, hupper, ih (some c) (c == '_') hrest]
      rfl

theorem all_isSnakeChar_snakeCase (s : String) : (snakeCase s).toList.all isSnakeChar = true := by
  rw [snakeCase, String.toList_ofList]
  exact all_isSnakeChar_snakeFrom none false s.toList

/-- The names that snake case leaves alone are those of which it copies every character. -/
theorem snakeCase_eq_self_iff {s : String} :
    snakeCase s = s ↔ s.toList.all isSnakeChar = true := by
  constructor
  · intro h
    rw [← h]
    exact all_isSnakeChar_snakeCase s
  · intro h
    rw [snakeCase, snakeChars, snakeFrom_of_all_isSnakeChar none false h, String.ofList_toList]

/--
Conversion keeps what is folded; Pascal case leaves no separator, and snake case
neither a capital nor one of the separators that it replaces, nor anything to
convert.
-/
theorem conversions_keep_folded (s : String) :
    folded (pascalCase s) = folded s ∧
      folded (snakeCase s) = folded s ∧
      (pascalCase s).toList.any isSeparator = false ∧
      (snakeCase s).toList.all isSnakeChar = true ∧
      snakeCase (snakeCase s) = snakeCase s := by
  have hsnake := all_isSnakeChar_snakeCase s
  refine ⟨?_, ?_, ?_, hsnake, snakeCase_eq_self_iff.mpr hsnake⟩
  · rw [folded, pascalCase, String.toList_ofList, foldedChars_pascalChars, folded]
  · rw [folded, snakeCase, snakeChars, String.toList_ofList, foldedChars_snakeFrom, folded]
  · rw [pascalCase, String.toList_ofList]
    exact any_isSeparator_pascalChars s.toList

example : snakeCase "HTTPServer-v2" = "http_server_v2" ∧
    folded "HTTPServer-v2" = "httpserverv2" ∧ folded "http_server_v2" = "httpserverv2" := by decide

/-! ## Pascal case of converted names -/

theorem head?_joinWords_not_isLower (cs : List Char) :
    (joinWords true cs).head?.any Char.isLower = false := by
  induction cs with
  | nil => rfl
  | cons c cs ih =>
      rw [joinWords]
      cases isSeparator c with
      | true => exact ih
      | false => exact isLower_toUpper c

theorem head?_pascalChars_not_isLower (cs : List Char) :
    (pascalChars cs).head?.any Char.isLower = false := by
  unfold pascalChars
  split
  · cases cs with
    | nil => rfl
    | cons c cs => exact isLower_toUpper c
  · exact head?_joinWords_not_isLower cs

/-- The one word that there is without separators. -/
theorem joinWords_of_no_separator {cs : List Char} (h : cs.any isSeparator = false) :
    joinWords false cs = cs.map Char.toLower := by
  induction cs with
  | nil => rfl
  | cons c cs ih =>
      obtain ⟨hfirst, hrest⟩ := Bool.or_eq_false_iff.mp h
      rw [joinWords, hfirst, ih hrest]
      rfl

theorem map_toLower_eq_self_iff {cs : List Char} :
    cs.map Char.toLower = cs ↔ cs.any Char.isUpper = false := by
  induction cs with
  | nil => exact iff_of_true rfl rfl
  | cons c cs ih =>
      rw [List.map_cons, List.cons.injEq, ih, List.any_cons, Bool.or_eq_false_iff]
      refine and_congr_left fun _ => ⟨fun h => ?_, toLower_of_not_isUpper⟩
      rw [← h]
      exact isUpper_toLower c

section

variable {c : Char} {cs : List Char} (hseparator : (c :: cs).any isSeparator = false)
  (hfirst : c.isLower = false)

include hseparator hfirst

/-- Without humps the name is a single word, which starts as it should. -/
theorem pascalChars_of_no_humps (hhumps : hasHumps (c :: cs) = false) :
    pascalChars (c :: cs) = c :: cs.map Char.toLower := by
  obtain ⟨hc, hcs⟩ := Bool.or_eq_false_iff.mp hseparator
  rw [pascalChars, hhumps, if_neg Bool.false_ne_true, joinWords, hc,
    joinWords_of_no_separator hcs, toUpper_of_not_isLower hfirst]
  rfl

theorem pascalChars_eq_self_iff :
    pascalChars (c :: cs) = c :: cs ↔ inCapitals (c :: cs) = false := by
  rw [inCapitals, Bool.and_eq_false_iff, Bool.not_eq_false']
  cases hhumps : hasHumps (c :: cs) with
  | true =>
      rw [pascalChars, if_pos hhumps, capitalize, toUpper_of_not_isLower hfirst]
      rw [hasHumps, Bool.and_eq_true, Bool.and_eq_true] at hhumps
      exact iff_of_true rfl (Or.inl hhumps.1.2)
  | false =>
      rw [pascalChars_of_no_humps hseparator hfirst hhumps, List.cons.injEq, and_iff_right rfl,
        map_toLower_eq_self_iff]
      refine ⟨Or.inr, ?_⟩
      rintro (hlower | hupper)
      · rw [hasHumps, hseparator, hlower, Bool.not_false, Bool.true_and, Bool.true_and] at hhumps
        exact (Bool.or_eq_false_iff.mp hhumps).2
      · exact hupper

/-- A capital that is lowered is a small letter then, so what is lowered is not in capitals. -/
theorem inCapitals_pascalChars : inCapitals (pascalChars (c :: cs)) = false := by
  cases h : inCapitals (c :: cs) with
  | false => rw [(pascalChars_eq_self_iff hseparator hfirst).mpr h, h]
  | true =>
      obtain ⟨hlower, hupper⟩ := Bool.and_eq_true_iff.mp h
      rw [Bool.not_eq_true'] at hlower
      have hhumps : hasHumps (c :: cs) = false := by
        rw [hasHumps, hlower, Bool.and_false, Bool.false_and]
      obtain ⟨u, hu, hcapital⟩ := List.any_eq_true.mp hupper
      have hletter : u.toLower.isLower = true :=
        (isLower_toLower u).trans (Bool.or_eq_true_iff.mpr (Or.inl hcapital))
      have hany : (c :: cs.map Char.toLower).any Char.isLower = true :=
        List.any_eq_true.mpr
          ⟨u.toLower, List.mem_cons_of_mem c (List.mem_map_of_mem hu), hletter⟩
      rw [pascalChars_of_no_humps hseparator hfirst hhumps, inCapitals, hany]
      rfl

end

/--
Converting a converted name changes it exactly if it is in capitals; what comes
out then is not, so that a third conversion never changes anything.
-/
theorem pascalCase_twice (s : String) :
    (pascalCase (pascalCase s) = pascalCase s ↔ inCapitals (pascalCase s).toList = false) ∧
      pascalCase (pascalCase (pascalCase s)) = pascalCase (pascalCase s) := by
  have htwice : ∀ t : String,
      (pascalCase (pascalCase t) = pascalCase t ↔ inCapitals (pascalCase t).toList = false) ∧
        inCapitals (pascalCase (pascalCase t)).toList = false := by
    intro t
    have hseparator := any_isSeparator_pascalChars t.toList
    have hfirst := head?_pascalChars_not_isLower t.toList
    simp only [pascalCase, String.toList_ofList, String.ofList_inj]
    cases hchars : pascalChars t.toList with
    | nil => exact ⟨iff_of_true rfl rfl, rfl⟩
    | cons c cs =>
        rw [hchars] at hseparator hfirst
        exact ⟨pascalChars_eq_self_iff hseparator hfirst, inCapitals_pascalChars hseparator hfirst⟩
  exact ⟨(htwice s).1, (htwice (pascalCase s)).1.mpr (htwice s).2⟩

/-- The initials that two words are joined to are read as one word. -/
theorem not_pascalCase_idempotent_initials :
    pascalCase (pascalCase "i_d") ≠ pascalCase "i_d" := by
  decide

end Text
end GrammarRecords
