/-
Texts that are only passed over.

Where a value does not matter, its text may be looser: strings with halves of
surrogate pairs, numbers out of range, and any nesting of brackets.  The reader
counts its calls down.  Two for each character, and one or two for the call
itself, are enough to get behind any loose text, and a run with so many calls
has passed over a loose text.  The calls that are left are part of the induction
in both directions, because a count that has run out ends a run as if it were
complete.
-/
import GrammarRecords.Json.Skipper
import GrammarRecords.Proofs.Json.Spelling.Values

namespace GrammarRecords
namespace Json

/-! ## Texts -/

inductive LooseMember (Item : Unit → List Char → Prop) : Unit → List Char → Prop
  | mk {key b b' cs : List Char} (hkey : UnitsText key) (hb : Blank b) (hb' : Blank b')
      (h : Item () cs) : LooseMember Item () ('"' :: (key ++ '"' :: (b ++ ':' :: (b' ++ cs))))

/-- A text that is passed over as one value; the unit stands for what is not built. -/
inductive Loose : Unit → List Char → Prop
  | null : Loose () ['n', 'u', 'l', 'l']
  | true : Loose () ['t', 'r', 'u', 'e']
  | false : Loose () ['f', 'a', 'l', 's', 'e']
  | number {sign : Bool} {x : Numeral} {cs : List Char} (h : SignedText sign x cs) : Loose () cs
  | string {text : List Char} (h : UnitsText text) : Loose () ('"' :: (text ++ ['"']))
  | array {us : List Unit} {body : List Char} (h : Items Loose true us body) :
      Loose () ('[' :: (body ++ [']']))
  | object {us : List Unit} {body : List Char} (h : Items (LooseMember Loose) true us body) :
      Loose () ('\x7b' :: (body ++ ['\x7d']))

theorem Loose.opens {cs : List Char} (h : Loose () cs) : Opens cs := by
  cases h with
  | null => exact ⟨'n', _, rfl, by decide, by decide⟩
  | true => exact ⟨'t', _, rfl, by decide, by decide⟩
  | false => exact ⟨'f', _, rfl, by decide, by decide⟩
  | number h => exact h.opens
  | string h => exact ⟨'"', _, rfl, by decide, by decide⟩
  | array h => exact ⟨'[', _, rfl, by decide, by decide⟩
  | object h => exact ⟨'\x7b', _, rfl, by decide, by decide⟩

/-! ## Getting behind a text -/

/-- The readers with this many calls left get behind the texts that need no more. -/
structure GetsBehind (fuel : Nat) : Prop where
  value : ∀ {b cs rest} (p), Blank b → Loose () cs → Ends rest → 2 * cs.length ≤ fuel →
    Reaches (skipValueIn fuel ⟨b ++ (cs ++ rest), p⟩) rest
  elements : ∀ {b cs us text rest} (p), Blank b → Loose () cs → Items Loose false us text →
    2 * (cs.length + text.length) + 1 ≤ fuel →
      Reaches (skipElementsIn fuel ⟨b ++ (cs ++ (text ++ ']' :: rest)), p⟩) rest
  members : ∀ {b cs us text rest} (p), Blank b → LooseMember Loose () cs →
    Items (LooseMember Loose) false us text → 2 * (cs.length + text.length) + 1 ≤ fuel →
      Reaches (skipMembersIn fuel ⟨b ++ (cs ++ (text ++ '\x7d' :: rest)), p⟩) rest

section

variable {fuel : Nat} (h : GetsBehind fuel)

include h

theorem reaches_skipElementsIn {b cs text rest : List Char} {us : List Unit} (p : Position)
    (hb : Blank b) (hcs : Loose () cs) (htext : Items Loose false us text)
    (hfuel : 2 * (cs.length + text.length) + 1 ≤ fuel + 1) :
    Reaches (skipElementsIn (fuel + 1) ⟨b ++ (cs ++ (text ++ ']' :: rest)), p⟩) rest := by
  have hends : Ends (text ++ ']' :: rest) := htext.ends (Ends.cons (by decide) rest)
  rw [skipElementsIn]
  refine (h.value p hb hcs hends (by omega)).bind fun q => ?_
  cases htext with
  | done hblank =>
      obtain ⟨q', hq'⟩ :=
        Cursor.skipBlank_append hblank (show Cursor.isBlank ']' = false by decide) rest q
      rw [hq']
      exact Reaches.ok _ _
  | @more _ u us gap ds text hgap hds htext =>
      cases hgap with
      | @comma b₁ b₂ hb₁ hb₂ =>
          obtain ⟨q', hq'⟩ := Cursor.skipBlank_append hb₁
            (show Cursor.isBlank ',' = false by decide) (b₂ ++ (ds ++ (text ++ ']' :: rest))) q
          have htail : b₁ ++ ',' :: b₂ ++ (ds ++ text) ++ ']' :: rest =
              b₁ ++ ',' :: (b₂ ++ (ds ++ (text ++ ']' :: rest))) := by simp
          have hlength : 2 * (ds.length + text.length) + 1 ≤ fuel := by
            simp only [List.length_append, List.length_cons] at hfuel
            omega
          rw [htail, hq']
          exact h.elements _ hb₂ hds htext hlength

theorem reaches_skipMembersIn {b cs text rest : List Char} {us : List Unit} (p : Position)
    (hb : Blank b) (hcs : LooseMember Loose () cs) (htext : Items (LooseMember Loose) false us text)
    (hfuel : 2 * (cs.length + text.length) + 1 ≤ fuel + 1) :
    Reaches (skipMembersIn (fuel + 1) ⟨b ++ (cs ++ (text ++ '\x7d' :: rest)), p⟩) rest := by
  have hends : Ends (text ++ '\x7d' :: rest) := htext.ends (Ends.cons (by decide) rest)
  cases hcs with
  | @mk key b₁ b₂ cs hkey hb₁ hb₂ hcs =>
      have hmember : '"' :: (key ++ '"' :: (b₁ ++ ':' :: (b₂ ++ cs))) ++ (text ++ '\x7d' :: rest) =
          '"' :: (key ++ '"' :: (b₁ ++ ':' :: (b₂ ++ (cs ++ (text ++ '\x7d' :: rest))))) := by simp
      obtain ⟨q, hq⟩ := Cursor.skipBlank_append hb (show Cursor.isBlank '"' = false by decide)
        (key ++ '"' :: (b₁ ++ ':' :: (b₂ ++ (cs ++ (text ++ '\x7d' :: rest))))) p
      have hvalue : 2 * cs.length ≤ fuel := by
        simp only [List.length_append, List.length_cons] at hfuel
        omega
      rw [skipMembersIn, hmember, hq]
      refine (reaches_skipString hkey _ _).bind fun q => ?_
      refine (reaches_readColon hb₁ _ q).bind fun q => ?_
      refine (h.value q hb₂ hcs hends hvalue).bind fun q => ?_
      cases htext with
      | done hblank =>
          obtain ⟨q', hq'⟩ :=
            Cursor.skipBlank_append hblank (show Cursor.isBlank '\x7d' = false by decide) rest q
          rw [hq']
          exact Reaches.ok _ _
      | @more _ u us gap ds text hgap hds htext =>
          cases hgap with
          | @comma b₃ b₄ hb₃ hb₄ =>
              obtain ⟨q', hq'⟩ := Cursor.skipBlank_append hb₃
                (show Cursor.isBlank ',' = false by decide)
                (b₄ ++ (ds ++ (text ++ '\x7d' :: rest))) q
              have htail : b₃ ++ ',' :: b₄ ++ (ds ++ text) ++ '\x7d' :: rest =
                  b₃ ++ ',' :: (b₄ ++ (ds ++ (text ++ '\x7d' :: rest))) := by simp
              have hlength : 2 * (ds.length + text.length) + 1 ≤ fuel := by
                simp only [List.length_append, List.length_cons] at hfuel
                omega
              rw [htail, hq']
              exact h.members _ hb₄ hds htext hlength

theorem reaches_skipValueIn {b cs rest : List Char} (p : Position) (hb : Blank b)
    (hcs : Loose () cs) (hrest : Ends rest) (hfuel : 2 * cs.length ≤ fuel + 1) :
    Reaches (skipValueIn (fuel + 1) ⟨b ++ (cs ++ rest), p⟩) rest := by
  have hskip (d : Char) (hd : Cursor.isBlank d = false) (ds : List Char) :=
    Cursor.skipBlank_append hb hd ds p
  rw [skipValueIn]
  cases hcs with
  | null =>
      obtain ⟨q, hq⟩ := hskip 'n' (by decide) (['u', 'l', 'l'] ++ rest)
      rw [List.cons_append, hq]
      exact reaches_readWord ['u', 'l', 'l'] rest _
  | true =>
      obtain ⟨q, hq⟩ := hskip 't' (by decide) (['r', 'u', 'e'] ++ rest)
      rw [List.cons_append, hq]
      exact reaches_readWord ['r', 'u', 'e'] rest _
  | false =>
      obtain ⟨q, hq⟩ := hskip 'f' (by decide) (['a', 'l', 's', 'e'] ++ rest)
      rw [List.cons_append, hq]
      exact reaches_readWord ['a', 'l', 's', 'e'] rest _
  | @string text htext =>
      have hbody : '"' :: (text ++ ['"']) ++ rest = '"' :: (text ++ '"' :: rest) := by simp
      obtain ⟨q, hq⟩ := hskip '"' (by decide) (text ++ '"' :: rest)
      rw [hbody, hq]
      exact reaches_skipString htext rest _
  | number hnumber =>
      cases hnumber with
      | @minus x cs hnumber =>
          obtain ⟨q, hq⟩ := hskip '-' (by decide) (cs ++ rest)
          rw [List.cons_append, hq]
          exact reaches_skipNumber hnumber hrest _
      | plain hnumber =>
          have hread := reaches_skipNumber hnumber hrest
          obtain ⟨d, ds, rfl, hd⟩ := hnumber.exists_cons
          obtain ⟨q, hq⟩ := hskip d (isBlank_of_isDigit hd) (ds ++ rest)
          have hne (e : Char) (he : e.isDigit = false) : ¬ d = e := ne_of_isDigit hd he
          rw [List.cons_append, hq]
          simp only [if_neg (hne 'n' rfl), if_neg (hne 't' rfl), if_neg (hne 'f' rfl),
            if_neg (hne '"' rfl), if_neg (hne '-' rfl), hd, if_true]
          exact hread q
  | @array us body hbody =>
      obtain ⟨q, hq⟩ := hskip '[' (by decide) (body ++ ']' :: rest)
      have hsplit : '[' :: (body ++ [']']) ++ rest = '[' :: (body ++ ']' :: rest) := by simp
      rw [hsplit, hq]
      cases hbody with
      | done hblank =>
          obtain ⟨q', hq'⟩ := Cursor.skipBlank_append hblank
            (show Cursor.isBlank ']' = false by decide) rest (q.after '[')
          simp only [Cursor.advance, hq', Char.reduceEq, Char.reduceIsDigit, Bool.false_eq_true,
            if_false, if_true]
          exact Reaches.ok _ _
      | @more _ u us gap ds text hgap hds htext =>
          have hlength : 2 * (ds.length + text.length) + 1 ≤ fuel := by
            simp only [List.length_append, List.length_cons, List.length_nil] at hfuel
            omega
          have hinside (q' : Position) :
              Reaches (skipElementsIn fuel ⟨ds ++ (text ++ ']' :: rest), q'⟩) rest :=
            h.elements q' Blank.nil hds htext hlength
          obtain ⟨d, es, rfl, hblank, hne⟩ := hds.opens
          cases hgap with
          | first hb₁ =>
              obtain ⟨q', hq'⟩ := Cursor.skipBlank_append hb₁ hblank
                (es ++ (text ++ ']' :: rest)) (q.after '[')
              rw [List.append_assoc, List.append_assoc, List.cons_append]
              simp only [Cursor.advance, hq', Char.reduceEq, Char.reduceIsDigit,
                Bool.false_eq_true, if_false, if_true]
              split
              · rename_i heq
                exact absurd heq (List.cons_ne_nil _ _)
              · rename_i heq
                exact absurd (List.cons.inj heq).1 hne
              · exact hinside q'
  | @object us body hbody =>
      obtain ⟨q, hq⟩ := hskip '\x7b' (by decide) (body ++ '\x7d' :: rest)
      have hsplit : '\x7b' :: (body ++ ['\x7d']) ++ rest = '\x7b' :: (body ++ '\x7d' :: rest) := by
        simp
      rw [hsplit, hq]
      cases hbody with
      | done hblank =>
          obtain ⟨q', hq'⟩ := Cursor.skipBlank_append hblank
            (show Cursor.isBlank '\x7d' = false by decide) rest (q.after '\x7b')
          simp only [Cursor.advance, hq', Char.reduceEq, Char.reduceIsDigit, Bool.false_eq_true,
            if_false, if_true]
          exact Reaches.ok _ _
      | @more _ u us gap ds text hgap hds htext =>
          have hlength : 2 * (ds.length + text.length) + 1 ≤ fuel := by
            simp only [List.length_append, List.length_cons, List.length_nil] at hfuel
            omega
          have hinside (q' : Position) :
              Reaches (skipMembersIn fuel ⟨ds ++ (text ++ '\x7d' :: rest), q'⟩) rest :=
            h.members q' Blank.nil hds htext hlength
          cases hds with
          | @mk key b₁ b₂ cs hkey hb₁ hb₂ hcs =>
              cases hgap with
              | first hgap =>
                  obtain ⟨q', hq'⟩ := Cursor.skipBlank_append hgap
                    (show Cursor.isBlank '"' = false by decide)
                    (key ++ '"' :: (b₁ ++ ':' :: (b₂ ++ cs)) ++ (text ++ '\x7d' :: rest))
                    (q.after '\x7b')
                  rw [List.append_assoc, List.append_assoc, List.cons_append]
                  simp only [Cursor.advance, hq', Char.reduceEq, Char.reduceIsDigit,
                    Bool.false_eq_true, if_false, if_true]
                  exact hinside q'

end

theorem getsBehind (fuel : Nat) : GetsBehind fuel := by
  induction fuel with
  | zero =>
      refine ⟨fun {b cs rest} p hb hcs hrest hfuel => ?_, fun p hb hcs htext hfuel => ?_,
        fun p hb hcs htext hfuel => ?_⟩
      · have hpos := List.length_pos_iff.mpr hcs.opens.ne_nil
        omega
      · omega
      · omega
  | succ fuel ih =>
      exact ⟨reaches_skipValueIn ih, reaches_skipElementsIn ih, reaches_skipMembersIn ih⟩

/-- Nothing else than a loose text is passed over, as long as there are calls left. -/
structure StaysLoose (fuel : Nat) : Prop where
  value : ∀ c, 2 * c.rest.length + 1 ≤ fuel → Yields (skipValueIn fuel c) fun c' =>
    ∃ b cs, Blank b ∧ Loose () cs ∧ c.rest = b ++ (cs ++ c'.rest)
  elements : ∀ c, 2 * c.rest.length + 2 ≤ fuel → Yields (skipElementsIn fuel c) fun c' =>
    ∃ b cs us text, Blank b ∧ Loose () cs ∧ Items Loose false us text ∧
      c.rest = b ++ (cs ++ (text ++ ']' :: c'.rest))
  members : ∀ c, 2 * c.rest.length + 2 ≤ fuel → Yields (skipMembersIn fuel c) fun c' =>
    ∃ b cs us text, Blank b ∧ LooseMember Loose () cs ∧ Items (LooseMember Loose) false us text ∧
      c.rest = b ++ (cs ++ (text ++ '\x7d' :: c'.rest))

theorem exists_looseKey (c : Cursor) :
    Yields (skipKey c) fun c' => ∃ key, UnitsText key ∧
      c.rest = '"' :: (key ++ '"' :: c'.rest) := by
  unfold skipKey
  split
  · exact .error _
  · rename_i ds hrest
    refine (exists_unitsText c.advance.rest c.advance).mono fun c' ⟨key, hkey, hends⟩ => ?_
    exact ⟨key, hkey, by rw [hrest, ← Cursor.rest_advance hrest, hends]⟩
  · exact .error _

section

variable {fuel : Nat} (h : StaysLoose fuel)

include h

theorem loose_skipElementsIn (c : Cursor) (hfuel : 2 * c.rest.length + 2 ≤ fuel + 1) :
    Yields (skipElementsIn (fuel + 1) c) fun c' =>
      ∃ b cs us text, Blank b ∧ Loose () cs ∧ Items Loose false us text ∧
        c.rest = b ++ (cs ++ (text ++ ']' :: c'.rest)) := by
  rw [skipElementsIn]
  refine (h.value c (by omega)).bind fun c₁ ⟨b, cs, hb, hcs, h₁⟩ => ?_
  obtain ⟨b₁, hb₁, hblank⟩ := c₁.exists_blank
  simp only
  split
  · exact .error _
  · rename_i ds hnext
    have hlength : 2 * c₁.skipBlank.advance.rest.length + 2 ≤ fuel := by
      rw [h₁, hblank, hnext] at hfuel
      rw [Cursor.rest_advance hnext]
      simp only [List.length_append, List.length_cons] at hfuel
      omega
    refine (h.elements _ hlength).mono ?_
    rintro c₂ ⟨b₂, ds, us, text, hb₂, hds, htext, h₂⟩
    refine ⟨b, cs, () :: us, _, hb, hcs, .more (.comma hb₁ hb₂) hds htext, ?_⟩
    rw [h₁, hblank, hnext, ← Cursor.rest_advance hnext, h₂]
    simp only [List.append_assoc, List.cons_append]
  · rename_i ds hclose
    refine .ok ⟨b, cs, [], b₁, hb, hcs, .done hb₁, ?_⟩
    rw [h₁, hblank, hclose, Cursor.rest_advance hclose]
  · exact .error _

theorem loose_skipMembersIn (c : Cursor) (hfuel : 2 * c.rest.length + 2 ≤ fuel + 1) :
    Yields (skipMembersIn (fuel + 1) c) fun c' =>
      ∃ b cs us text, Blank b ∧ LooseMember Loose () cs ∧
        Items (LooseMember Loose) false us text ∧
          c.rest = b ++ (cs ++ (text ++ '\x7d' :: c'.rest)) := by
  obtain ⟨b, hb, hbefore⟩ := c.exists_blank
  rw [skipMembersIn]
  refine (exists_looseKey c.skipBlank).bind fun c₁ ⟨key, hkey, h₁⟩ => ?_
  refine (exists_colon c₁).bind fun c₂ ⟨b₁, hb₁, h₂⟩ => ?_
  have hvalue : 2 * c₂.rest.length + 1 ≤ fuel := by
    rw [hbefore, h₁, h₂] at hfuel
    simp only [List.length_append, List.length_cons] at hfuel
    omega
  refine (h.value c₂ hvalue).bind fun c₃ ⟨b₂, cs, hb₂, hcs, h₃⟩ => ?_
  have hmember := LooseMember.mk hkey hb₁ hb₂ hcs
  obtain ⟨b₃, hb₃, hblank⟩ := c₃.exists_blank
  simp only
  split
  · exact .error _
  · rename_i ds hnext
    have hlength : 2 * c₃.skipBlank.advance.rest.length + 2 ≤ fuel := by
      rw [h₃, hblank, hnext] at hvalue
      rw [Cursor.rest_advance hnext]
      simp only [List.length_append, List.length_cons] at hvalue
      omega
    refine (h.members _ hlength).mono ?_
    rintro c₄ ⟨b₄, ds, us, text, hb₄, hds, htext, h₄⟩
    refine ⟨b, _, () :: us, _, hb, hmember, .more (.comma hb₃ hb₄) hds htext, ?_⟩
    rw [hbefore, h₁, h₂, h₃, hblank, hnext, ← Cursor.rest_advance hnext, h₄]
    simp only [List.append_assoc, List.cons_append]
  · rename_i ds hclose
    refine .ok ⟨b, _, [], b₃, hb, hmember, .done hb₃, ?_⟩
    rw [hbefore, h₁, h₂, h₃, hblank, hclose, Cursor.rest_advance hclose]
    simp only [List.append_assoc, List.cons_append]
  · exact .error _

theorem loose_skipValueIn (c : Cursor) (hfuel : 2 * c.rest.length + 1 ≤ fuel + 1) :
    Yields (skipValueIn (fuel + 1) c) fun c' =>
      ∃ b cs, Blank b ∧ Loose () cs ∧ c.rest = b ++ (cs ++ c'.rest) := by
  obtain ⟨b, hb, hblank⟩ := c.exists_blank
  have hword {d : Char} {ds word : List Char} (hrest : c.skipBlank.rest = d :: ds)
      (hv : Loose () (d :: word)) :
      Yields (readWord word c.skipBlank.advance) fun c' =>
        ∃ b cs, Blank b ∧ Loose () cs ∧ c.rest = b ++ (cs ++ c'.rest) := by
    refine (rest_readWord word _).mono fun c₁ hends => ⟨b, d :: word, hb, hv, ?_⟩
    rw [hblank, hrest, ← Cursor.rest_advance hrest, hends, List.cons_append]
  rw [skipValueIn]
  simp only
  split
  · exact .error _
  · rename_i d ds hrest
    have hadvance := Cursor.rest_advance hrest
    obtain ⟨b₁, hb₁, hinside⟩ := c.skipBlank.advance.exists_blank
    have hlength : 2 * c.skipBlank.advance.skipBlank.rest.length + 2 ≤ fuel := by
      rw [hblank, hrest, ← hadvance, hinside] at hfuel
      simp only [List.length_append, List.length_cons] at hfuel
      omega
    refine .ite (fun hn => hword hrest (hn ▸ .null)) fun _ => ?_
    refine .ite (fun ht => hword hrest (ht ▸ .true)) fun _ => ?_
    refine .ite (fun hf => hword hrest (hf ▸ .false)) fun _ => ?_
    refine .ite (fun hquote => ?_) fun _ => ?_
    · refine (exists_unitsText _ c.skipBlank.advance).mono fun c₁ ⟨text, htext, hends⟩ => ?_
      refine ⟨b, _, hb, .string htext, ?_⟩
      rw [hblank, hrest, hquote, ← hadvance, hends]
      simp
    refine .ite (fun hminus => ?_) fun _ => ?_
    · refine (exists_numeralText_of_skip c.skipBlank.advance).mono ?_
      rintro c₁ ⟨x, cs, hcs, hends⟩
      refine ⟨b, _, hb, .number (.minus hcs), ?_⟩
      rw [hblank, hrest, hminus, ← hadvance, hends, List.cons_append]
    refine .ite (fun _ => ?_) fun _ => ?_
    · refine (exists_numeralText_of_skip c.skipBlank).mono ?_
      rintro c₁ ⟨x, cs, hcs, hends⟩
      exact ⟨b, cs, hb, .number (.plain hcs), by rw [hblank, hends]⟩
    refine .ite (fun harray => ?_) fun _ => .ite (fun hobject => ?_) fun _ => .error _
    · split
      · exact .error _
      · rename_i ds hclose
        refine .ok ⟨b, _, hb, .array (.done hb₁), ?_⟩
        rw [hblank, hrest, harray, ← hadvance, hinside, hclose, Cursor.rest_advance hclose]
        simp
      · refine (h.elements _ hlength).mono ?_
        rintro c₁ ⟨b₂, cs, us, text, hb₂, hcs, htext, hends⟩
        refine ⟨b, _, hb, .array (.more (.first (hb₁.append hb₂)) hcs htext), ?_⟩
        rw [hblank, hrest, harray, ← hadvance, hinside, hends]
        simp
    · split
      · exact .error _
      · rename_i ds hclose
        refine .ok ⟨b, _, hb, .object (.done hb₁), ?_⟩
        rw [hblank, hrest, hobject, ← hadvance, hinside, hclose, Cursor.rest_advance hclose]
        simp
      · refine (h.members _ hlength).mono ?_
        rintro c₁ ⟨b₂, cs, us, text, hb₂, hcs, htext, hends⟩
        refine ⟨b, _, hb, .object (.more (.first (hb₁.append hb₂)) hcs htext), ?_⟩
        rw [hblank, hrest, hobject, ← hadvance, hinside, hends]
        simp

end

theorem staysLoose (fuel : Nat) : StaysLoose fuel := by
  induction fuel with
  | zero =>
      refine ⟨fun c hfuel => ?_, fun c hfuel => ?_, fun c hfuel => ?_⟩
      all_goals omega
  | succ fuel ih => exact ⟨loose_skipValueIn ih, loose_skipElementsIn ih, loose_skipMembersIn ih⟩

theorem reaches_skipValue {b cs rest : List Char} (hb : Blank b) (hcs : Loose () cs)
    (hrest : Ends rest) (p : Position) : Reaches (skipValue ⟨b ++ (cs ++ rest), p⟩) rest := by
  refine (getsBehind _).value p hb hcs hrest ?_
  simp only [List.length_append]
  omega

theorem exists_loose (c : Cursor) :
    Yields (skipValue c) fun c' => ∃ b cs, Blank b ∧ Loose () cs ∧ c.rest = b ++ (cs ++ c'.rest) :=
  (staysLoose _).value c (Nat.le_succ _)

end Json
end GrammarRecords
