/-
Texts of values.

`Spells` says which texts stand for which values, with every choice of blanks and
escapes.  A reader with a bound on the open brackets finds the value of a text if
it keeps to the bound, and fails if it does not; whatever it finds is spelled by
what it has passed over.  Both are inductions on the bound alone, because a value
in brackets is read by the reader with the next smaller one.
-/
import GrammarRecords.Proofs.Json.Spelling.Brackets
import GrammarRecords.Proofs.Json.Spelling.Numbers

namespace GrammarRecords
namespace Json

inductive Spells : Value → List Char → Prop
  | null : Spells .null ['n', 'u', 'l', 'l']
  | true : Spells (.bool true) ['t', 'r', 'u', 'e']
  | false : Spells (.bool false) ['f', 'a', 'l', 's', 'e']
  | number {sign : Bool} {x : Numeral} {n : Number} {cs : List Char} (h : SignedText sign x cs)
      (hn : x.number? sign = some n) : Spells (.number n) cs
  | string {s : String} {cs : List Char} (h : StringText s cs) : Spells (.string s) cs
  | array {vs : List Value} {body : List Char} (h : Items Spells true vs body) :
      Spells (.array vs) ('[' :: (body ++ [']']))
  | object {ms : List (String × Value)} {body : List Char}
      (h : Items (MemberText fun _ => Spells) true ms body) :
      Spells (.object ms) ('\x7b' :: (body ++ ['\x7d']))

namespace Value

def isScalar : Value → Bool
  | array _ | object _ => false
  | _ => true

/-- Whether no more brackets than this are open at a time. -/
def fits : Nat → Value → Bool
  | 0, v => v.isScalar
  | k + 1, array vs => vs.all (fits k)
  | k + 1, object ms => ms.all fun m => fits k m.2
  | _ + 1, _ => true

theorem fits_of_isScalar {v : Value} (h : v.isScalar = true) (k : Nat) : v.fits k = true := by
  cases k with
  | zero => exact h
  | succ k =>
      cases v with
      | array vs => exact absurd h Bool.false_ne_true
      | object ms => exact absurd h Bool.false_ne_true
      | _ => rfl

end Value

/-! ## First characters -/

theorem isDigit_of_wholeText {ds : List Nat} {cs : List Char} (h : WholeText ds cs) :
    ∃ d es, cs = d :: es ∧ d.isDigit = true := by
  cases h with
  | zero => exact ⟨'0', [], rfl, rfl⟩
  | @digits _ d es hd h => exact ⟨d, es, rfl, h.1 d List.mem_cons_self⟩

theorem NumeralText.exists_cons {x : Numeral} {cs : List Char} (h : NumeralText x cs) :
    ∃ d ds, cs = d :: ds ∧ d.isDigit = true := by
  cases h with
  | mk hwhole =>
      obtain ⟨d, es, rfl, hd⟩ := isDigit_of_wholeText hwhole
      exact ⟨d, _, rfl, hd⟩

theorem ne_of_isDigit {d e : Char} (hd : d.isDigit = true) (he : e.isDigit = false) : d ≠ e :=
  fun h => Bool.false_ne_true (he.symm.trans (h ▸ hd))

theorem isBlank_of_isDigit {d : Char} (hd : d.isDigit = true) : Cursor.isBlank d = false := by
  simp only [Cursor.isBlank, Bool.or_eq_false_iff, beq_eq_false_iff_ne]
  exact ⟨⟨⟨ne_of_isDigit hd rfl, ne_of_isDigit hd rfl⟩, ne_of_isDigit hd rfl⟩,
    ne_of_isDigit hd rfl⟩

theorem SignedText.opens {sign : Bool} {x : Numeral} {cs : List Char} (h : SignedText sign x cs) :
    Opens cs := by
  cases h with
  | plain h =>
      obtain ⟨d, ds, rfl, hd⟩ := h.exists_cons
      exact ⟨d, ds, rfl, isBlank_of_isDigit hd, ne_of_isDigit hd rfl⟩
  | minus h => exact ⟨'-', _, rfl, by decide, by decide⟩

theorem Spells.opens {v : Value} {cs : List Char} (h : Spells v cs) : Opens cs := by
  cases h with
  | null => exact ⟨'n', _, rfl, by decide, by decide⟩
  | true => exact ⟨'t', _, rfl, by decide, by decide⟩
  | false => exact ⟨'f', _, rfl, by decide, by decide⟩
  | number h hn => exact h.opens
  | string h =>
      obtain ⟨ds, rfl⟩ := h.exists_cons
      exact ⟨'"', ds, rfl, by decide, by decide⟩
  | array h => exact ⟨'[', _, rfl, by decide, by decide⟩
  | object h => exact ⟨'\x7b', _, rfl, by decide, by decide⟩

/-! ## Reading -/

theorem reaches_readWord (word rest : List Char) (p : Position) :
    Reaches (readWord word ⟨word ++ rest, p⟩) rest := by
  induction word generalizing p with
  | nil => exact Reaches.ok _ _
  | cons w ws ih =>
      rw [List.cons_append, readWord]
      simp only [if_true]
      exact ih _

theorem rest_readWord (word : List Char) (c : Cursor) :
    Yields (readWord word c) fun c' => c.rest = word ++ c'.rest := by
  induction word generalizing c with
  | nil => exact .ok rfl
  | cons w ws ih =>
      rw [readWord]
      split
      · exact .error _
      · rename_i d ds hrest
        split_ifs with hd
        · refine (ih c.advance).mono fun c' hends => ?_
          rw [hrest, ← Cursor.rest_advance hrest, hends, hd, List.cons_append]
        · exact .error _

section Within

variable {α : Type} (fits : α → Bool)

/-- What is found where a bound is kept to. -/
def within (a : α) : Option α :=
  if fits a then some a else none

theorem map_within {β : Type} {fits' : β → Bool} {f : α → β} {a : α} (h : fits' (f a) = fits a) :
    (within fits a).map f = within fits' (f a) := by
  unfold within
  rw [h]
  split_ifs <;> rfl

/-- Puts an item before the others, if it keeps to the bound. -/
def collect (as : List α) (a : α) : Option (List α) :=
  (within fits a).map (· :: as)

theorem foldlM_collect (as bs : List α) :
    as.foldlM (collect fits) bs = (within (List.all · fits) as).map (·.reverse ++ bs) := by
  induction as generalizing bs with
  | nil => rfl
  | cons a as ih =>
      rw [List.foldlM_cons]
      by_cases ha : fits a = true
      · have hstep : collect fits bs a = some (a :: bs) := by simp [collect, within, ha]
        rw [hstep, Option.bind_eq_bind, Option.bind_some, ih]
        simp only [within, List.all_cons, ha, Bool.true_and]
        split_ifs
        · simp
        · rfl
      · simp [collect, within, ha]

theorem map_foldlM_collect {β : Type} (f : List α → β) (as : List α) :
    (as.foldlM (collect fits) []).map (fun as => f as.reverse) =
      (within (List.all · fits) as).map f := by
  rw [foldlM_collect, Option.map_map]
  simp [Function.comp_def]

end Within

theorem finds_readElements {vs : List Value} {body : List Char} (h : Items Spells true vs body)
    {nested : ValueReader} {fits : Value → Bool}
    (hnested : ∀ v cs rest p, Spells v cs → Ends rest →
      Finds (nested ⟨cs ++ rest, p⟩) (within fits v) rest)
    (rest : List Char) (p : Position) :
    Finds (readElements nested ⟨body ++ ']' :: rest, p⟩)
      ((within (List.all · fits) vs).map .array) rest := by
  have hsteps : body.length < (stepsFrom ⟨body ++ ']' :: rest, p⟩).length := by
    simp only [stepsFrom, List.length_cons, List.length_append]
    omega
  rw [← map_foldlM_collect]
  unfold readElements
  refine Finds.map (finds_foldElements _ h (fun _ _ => Spells.opens) ?_ hsteps [] rest p)
    fun vs q => ⟨q.after ']', rfl⟩
  intro vs v cs rest p hv hrest
  exact (hnested v cs rest p hv hrest).map fun v q => ⟨q, rfl⟩

theorem finds_readMembers {ms : List (String × Value)} {body : List Char}
    (h : Items (MemberText fun _ => Spells) true ms body) {nested : ValueReader}
    {fits : Value → Bool}
    (hnested : ∀ v b cs rest p, Blank b → Spells v cs → Ends rest →
      Finds (nested ⟨b ++ (cs ++ rest), p⟩) (within fits v) rest)
    (rest : List Char) (p : Position) :
    Finds (readMembers nested ⟨body ++ '\x7d' :: rest, p⟩)
      ((within (List.all · fun m => fits m.2) ms).map .object) rest := by
  have hsteps : body.length < (stepsFrom ⟨body ++ '\x7d' :: rest, p⟩).length := by
    simp only [stepsFrom, List.length_cons, List.length_append]
    omega
  rw [← map_foldlM_collect]
  unfold readMembers
  refine Finds.map (finds_foldMembers _ h ?_ hsteps [] rest p) fun ms q => ⟨q.after '\x7d', rfl⟩
  intro ms key v b b' cs rest p hb hb' hv hrest
  have hmember : (within fits v).map (fun v => (key, v) :: ms) =
      collect (fun m : String × Value => fits m.2) ms (key, v) := by
    rw [collect, ← map_within fits (f := fun v => (key, v)) rfl, Option.map_map]
    rfl
  rw [← hmember]
  refine (reaches_readColon hb _ p).finds fun q => ?_
  exact (hnested v b' cs rest q hb' hv hrest).map fun v q => ⟨q, rfl⟩

theorem finds_readWith_scalar {v : Value} {cs : List Char} (h : Spells v cs)
    (hv : v.isScalar = true) (nested : Option ValueReader) {b rest : List Char} (hb : Blank b)
    (hrest : Ends rest) (p : Position) :
    Finds (readWith nested ⟨b ++ (cs ++ rest), p⟩) (some v) rest := by
  have hskip (d : Char) (hd : Cursor.isBlank d = false) (ds : List Char) :=
    Cursor.skipBlank_append hb hd ds p
  cases h with
  | null =>
      obtain ⟨q, hq⟩ := hskip 'n' (by decide) (['u', 'l', 'l'] ++ rest)
      unfold readWith
      rw [List.cons_append, hq]
      exact (reaches_readWord ['u', 'l', 'l'] rest _).finds fun q => Finds.ok _ _ q
  | true =>
      obtain ⟨q, hq⟩ := hskip 't' (by decide) (['r', 'u', 'e'] ++ rest)
      unfold readWith
      rw [List.cons_append, hq]
      exact (reaches_readWord ['r', 'u', 'e'] rest _).finds fun q => Finds.ok _ _ q
  | false =>
      obtain ⟨q, hq⟩ := hskip 'f' (by decide) (['a', 'l', 's', 'e'] ++ rest)
      unfold readWith
      rw [List.cons_append, hq]
      exact (reaches_readWord ['a', 'l', 's', 'e'] rest _).finds fun q => Finds.ok _ _ q
  | string h =>
      cases h with
      | @mk body h =>
          have hbody : '"' :: (body ++ ['"']) ++ rest = '"' :: (body ++ '"' :: rest) := by simp
          obtain ⟨q, hq⟩ := hskip '"' (by decide) (body ++ '"' :: rest)
          unfold readWith
          rw [hbody, hq]
          exact (finds_readString h rest _).then fun q => Finds.ok _ _ q
  | number h hn =>
      cases h with
      | @minus x cs h =>
          obtain ⟨q, hq⟩ := hskip '-' (by decide) (cs ++ rest)
          unfold readWith
          rw [List.cons_append, hq]
          have hread := finds_readNumber h hrest true (q.after '-')
          rw [hn] at hread
          exact hread.then fun q => Finds.ok _ _ q
      | plain h =>
          have hread := finds_readNumber h hrest false
          obtain ⟨d, ds, rfl, hd⟩ := h.exists_cons
          obtain ⟨q, hq⟩ := hskip d (isBlank_of_isDigit hd) (ds ++ rest)
          have hne (e : Char) (he : e.isDigit = false) : ¬ d = e := ne_of_isDigit hd he
          unfold readWith
          rw [List.cons_append, hq]
          simp only [if_neg (hne 'n' rfl), if_neg (hne 't' rfl), if_neg (hne 'f' rfl),
            if_neg (hne '"' rfl), if_neg (hne '-' rfl), hd, if_true]
          have hread := hread q
          rw [hn] at hread
          exact hread.then fun q => Finds.ok _ _ q
  | array h => exact absurd hv Bool.false_ne_true
  | object h => exact absurd hv Bool.false_ne_true

theorem readWith_array (nested : Option ValueReader) {b : List Char} (hb : Blank b)
    (rest : List Char) (p : Position) :
    ∃ q, readWith nested ⟨b ++ '[' :: rest, p⟩ =
      nested.elim (Cursor.atNext ⟨'[' :: rest, q⟩ .tooDeep)
        fun nested => readElements nested ⟨rest, q.after '['⟩ := by
  obtain ⟨q, hq⟩ := Cursor.skipBlank_append hb (show Cursor.isBlank '[' = false by decide) rest p
  refine ⟨q, ?_⟩
  unfold readWith
  rw [hq]
  cases nested with
  | none => rfl
  | some nested => rfl

theorem readWith_object (nested : Option ValueReader) {b : List Char} (hb : Blank b)
    (rest : List Char) (p : Position) :
    ∃ q, readWith nested ⟨b ++ '\x7b' :: rest, p⟩ =
      nested.elim (Cursor.atNext ⟨'\x7b' :: rest, q⟩ .tooDeep)
        fun nested => readMembers nested ⟨rest, q.after '\x7b'⟩ := by
  obtain ⟨q, hq⟩ := Cursor.skipBlank_append hb (show Cursor.isBlank '\x7b' = false by decide) rest p
  refine ⟨q, ?_⟩
  unfold readWith
  rw [hq]
  cases nested with
  | none => rfl
  | some nested => rfl

theorem finds_readValue_scalar {v : Value} {cs : List Char} (h : Spells v cs)
    (hv : v.isScalar = true) (k : Nat) {b rest : List Char} (hb : Blank b) (hrest : Ends rest)
    (p : Position) :
    Finds (readValue k ⟨b ++ (cs ++ rest), p⟩) (within (Value.fits k) v) rest := by
  rw [within, if_pos (Value.fits_of_isScalar hv k)]
  cases k with
  | zero => exact finds_readWith_scalar h hv none hb hrest p
  | succ k => exact finds_readWith_scalar h hv (some (readValue k)) hb hrest p

/-- A value is found by a reader that may open as many brackets as the value needs. -/
theorem finds_readValue {v : Value} {cs : List Char} (h : Spells v cs) (k : Nat)
    {b rest : List Char} (hb : Blank b) (hrest : Ends rest) (p : Position) :
    Finds (readValue k ⟨b ++ (cs ++ rest), p⟩) (within (Value.fits k) v) rest := by
  induction k generalizing v cs b rest p with
  | zero =>
      cases v with
      | array vs =>
          cases h with
          | @array _ body h =>
              obtain ⟨q, hq⟩ := readWith_array none hb (body ++ [']'] ++ rest) p
              exact ⟨_, hq⟩
      | object ms =>
          cases h with
          | @object _ body h =>
              obtain ⟨q, hq⟩ := readWith_object none hb (body ++ ['\x7d'] ++ rest) p
              exact ⟨_, hq⟩
      | _ => exact finds_readValue_scalar h rfl 0 hb hrest p
  | succ k ih =>
      cases v with
      | array vs =>
          cases h with
          | @array _ body h =>
              obtain ⟨q, hq⟩ := readWith_array (some (readValue k)) hb (body ++ ']' :: rest) p
              have hbody : '[' :: (body ++ [']']) ++ rest = '[' :: (body ++ ']' :: rest) := by simp
              rw [hbody, ← map_within (List.all · (Value.fits k)) rfl, readValue, hq]
              exact finds_readElements h
                (fun v cs rest p hv hrest => ih hv Blank.nil hrest p) rest _
      | object ms =>
          cases h with
          | @object _ body h =>
              obtain ⟨q, hq⟩ := readWith_object (some (readValue k)) hb (body ++ '\x7d' :: rest) p
              have hbody : '\x7b' :: (body ++ ['\x7d']) ++ rest =
                  '\x7b' :: (body ++ '\x7d' :: rest) := by simp
              rw [hbody, ← map_within (List.all · fun m => Value.fits k m.2) rfl, readValue, hq]
              exact finds_readMembers h
                (fun v b cs rest p hb hv hrest => ih hv hb hrest p) rest _
      | _ => exact finds_readValue_scalar h rfl (k + 1) hb hrest p

/-! ## Whatever is found -/

/-- What the reader has passed over spells what it has found. -/
def IsSpelled (c : Cursor) (p : Value × Cursor) : Prop :=
  ∃ b cs, Blank b ∧ Spells p.1 cs ∧ c.rest = b ++ (cs ++ p.2.rest)

theorem spells_readElements {nested : ValueReader} (hnested : ∀ c, Yields (nested c) (IsSpelled c))
    (c : Cursor) :
    Yields (readElements nested c) fun p => ∃ cs, Spells p.1 ('[' :: cs) ∧
      c.rest = cs ++ p.2.rest := by
  unfold readElements
  refine (exists_items_of_foldElements _ Spells (fun vs' vs => vs'.reverse = vs)
    (fun v cs h => h.opens.ne_nil) ?_ (stepsFrom c) true [] List.reverse_nil c
    (Nat.lt_succ_self _)).bind ?_
  · rintro vs' vs c₁ rfl
    refine (hnested c₁).bind fun ⟨v, c₂⟩ ⟨b, cs, hb, hcs, hends⟩ => .ok ?_
    exact ⟨v, b, cs, hb, hcs, List.reverse_cons, hends⟩
  · rintro ⟨vs', c₁⟩ ⟨vs, text, rest, htext, hvs, hclose, hends⟩
    refine .ok ⟨text ++ [']'], hvs ▸ .array htext, ?_⟩
    rw [hends, hclose, Cursor.rest_advance hclose]
    simp

theorem spells_readMembers {nested : ValueReader} (hnested : ∀ c, Yields (nested c) (IsSpelled c))
    (c : Cursor) :
    Yields (readMembers nested c) fun p => ∃ cs, Spells p.1 ('\x7b' :: cs) ∧
      c.rest = cs ++ p.2.rest := by
  unfold readMembers
  refine (exists_items_of_foldMembers _ (fun _ => Spells) (fun ms' ms => ms'.reverse = ms) ?_
    (stepsFrom c) true [] List.reverse_nil c (Nat.lt_succ_self _)).bind ?_
  · rintro ms' ms key c₁ rfl
    refine (exists_colon c₁).bind fun c₂ ⟨b, hb, hcolon⟩ => ?_
    refine (hnested c₂).bind fun ⟨v, c₃⟩ ⟨b', cs, hb', hcs, hends⟩ => .ok ?_
    exact ⟨v, b, b', cs, hb, hb', hcs, List.reverse_cons, hends ▸ hcolon⟩
  · rintro ⟨ms', c₁⟩ ⟨ms, text, rest, htext, hms, hclose, hends⟩
    refine .ok ⟨text ++ ['\x7d'], hms ▸ .object htext, ?_⟩
    rw [hends, hclose, Cursor.rest_advance hclose]
    simp

theorem isSpelled_readWith {nested : Option ValueReader}
    (hnested : ∀ read, nested = some read → ∀ c, Yields (read c) (IsSpelled c)) (c : Cursor) :
    Yields (readWith nested c) (IsSpelled c) := by
  obtain ⟨b, hb, hblank⟩ := c.exists_blank
  have hword {v : Value} {d : Char} {ds word : List Char} (hrest : c.skipBlank.rest = d :: ds)
      (hv : Spells v (d :: word)) :
      Yields (do return (v, ← readWord word c.skipBlank.advance)) (IsSpelled c) := by
    refine (rest_readWord word _).bind fun c₁ hends => .ok ⟨b, d :: word, hb, hv, ?_⟩
    rw [hblank, hrest, ← Cursor.rest_advance hrest, hends, List.cons_append]
  unfold readWith
  simp only
  split
  · exact .error _
  · rename_i d ds hrest
    have hadvance := Cursor.rest_advance hrest
    refine .ite (fun hn => hword hrest (hn ▸ .null)) fun _ => ?_
    refine .ite (fun ht => hword hrest (ht ▸ .true)) fun _ => ?_
    refine .ite (fun hf => hword hrest (hf ▸ .false)) fun _ => ?_
    refine .ite (fun hquote => ?_) fun _ => ?_
    · refine (exists_stringText c.skipBlank.advance).bind fun ⟨s, c₁⟩ ⟨body, hbody, hends⟩ => .ok ?_
      refine ⟨b, _, hb, .string (.mk hbody), ?_⟩
      rw [hblank, hrest, hquote, ← hadvance, hends]
      simp
    refine .ite (fun hminus => ?_) fun _ => ?_
    · refine (exists_numeralText true c.skipBlank.advance).bind ?_
      rintro ⟨n, c₁⟩ ⟨x, cs, hcs, hn, hends⟩
      refine .ok ⟨b, _, hb, .number (.minus hcs) hn, ?_⟩
      rw [hblank, hrest, hminus, ← hadvance, hends, List.cons_append]
    refine .ite (fun _ => ?_) fun _ => ?_
    · refine (exists_numeralText false c.skipBlank).bind ?_
      rintro ⟨n, c₁⟩ ⟨x, cs, hcs, hn, hends⟩
      exact .ok ⟨b, cs, hb, .number (.plain hcs) hn, by rw [hblank, hends]⟩
    refine .ite (fun hopen => ?_) fun _ => .error _
    split
    · exact .error _
    · rename_i read
      refine .ite (fun harray => ?_) fun harray => ?_
      · refine (spells_readElements (hnested read rfl) c.skipBlank.advance).mono ?_
        rintro p ⟨cs, hcs, hends⟩
        exact ⟨b, _, hb, hcs, by rw [hblank, hrest, harray, ← hadvance, hends, List.cons_append]⟩
      · refine (spells_readMembers (hnested read rfl) c.skipBlank.advance).mono ?_
        rintro p ⟨cs, hcs, hends⟩
        refine ⟨b, _, hb, hcs, ?_⟩
        rw [hblank, hrest, hopen.resolve_left harray, ← hadvance, hends, List.cons_append]

theorem isSpelled_readValue (k : Nat) (c : Cursor) : Yields (readValue k c) (IsSpelled c) := by
  induction k generalizing c with
  | zero => exact isSpelled_readWith (fun read h => absurd h (Option.some_ne_none read).symm) c
  | succ k ih => exact isSpelled_readWith (fun read h => Option.some.inj h ▸ ih) c

end Json
end GrammarRecords
