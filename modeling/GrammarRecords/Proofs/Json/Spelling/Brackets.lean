/-
Texts in brackets.

The text between the brackets of an array is a list of items behind commas, and
so is that of an object, where an item is a key, a colon and what belongs to the
key.  Nothing is said here about the texts of the items.  If a step of a loop
agrees with a function of the items, the loop agrees with the fold of this
function: it finds the result if there is one, and fails if there is none.  In
the other direction, whatever a loop has passed over is a list of items, and its
state is one that these items lead to (`Reached`).
-/
import GrammarRecords.Json.Reader
import GrammarRecords.Proofs.Json.Spelling.Strings

namespace GrammarRecords
namespace Json

/-! ## Texts -/

/-- What stands before an item. -/
inductive Gap : Bool → List Char → Prop
  | first {b : List Char} (hb : Blank b) : Gap true b
  | comma {b b' : List Char} (hb : Blank b) (hb' : Blank b') : Gap false (b ++ ',' :: b')

/-- Items up to the closing bracket, the first of which may be the first in the brackets. -/
inductive Items {α : Type} (Item : α → List Char → Prop) : Bool → List α → List Char → Prop
  | done {first : Bool} {b : List Char} (hb : Blank b) : Items Item first [] b
  | more {first : Bool} {a : α} {as : List α} {gap cs rest : List Char} (hgap : Gap first gap)
      (ha : Item a cs) (h : Items Item false as rest) :
      Items Item first (a :: as) (gap ++ (cs ++ rest))

/-- A member, where the key tells what texts may belong to it. -/
inductive MemberText {α : Type} (Item : String → α → List Char → Prop) :
    String × α → List Char → Prop
  | mk {key : String} {a : α} {keyText b b' cs : List Char} (hkey : StringText key keyText)
      (hb : Blank b) (hb' : Blank b') (ha : Item key a cs) :
      MemberText Item (key, a) (keyText ++ (b ++ ':' :: (b' ++ cs)))

/-- A text that starts as an item of an array may. -/
def Opens (cs : List Char) : Prop :=
  ∃ d ds, cs = d :: ds ∧ Cursor.isBlank d = false ∧ d ≠ ']'

theorem Opens.ne_nil {cs : List Char} (h : Opens cs) : cs ≠ [] := by
  obtain ⟨d, ds, rfl, -⟩ := h
  exact List.cons_ne_nil d ds

theorem Opens.append {cs : List Char} (h : Opens cs) (rest : List Char) : Opens (cs ++ rest) := by
  obtain ⟨d, ds, rfl, hd⟩ := h
  exact ⟨d, ds ++ rest, rfl, hd⟩

theorem StringText.exists_cons {s : String} {cs : List Char} (h : StringText s cs) :
    ∃ ds, cs = '"' :: ds := by
  cases h with
  | mk h => exact ⟨_, rfl⟩

theorem MemberText.ne_nil {α : Type} {Item : String → α → List Char → Prop} {m : String × α}
    {cs : List Char} (h : MemberText Item m cs) : cs ≠ [] := by
  cases h with
  | mk hkey =>
      obtain ⟨ds, rfl⟩ := hkey.exists_cons
      exact List.cons_ne_nil _ _

theorem Gap.append_blank {first : Bool} {gap b : List Char} (h : Gap first gap) (hb : Blank b) :
    Gap first (gap ++ b) := by
  cases h with
  | first h => exact .first (h.append hb)
  | comma h h' =>
      rw [List.append_assoc, List.cons_append]
      exact .comma h (h'.append hb)

theorem Gap.ends {gap rest : List Char} (h : Gap false gap) : Ends (gap ++ rest) := by
  cases h with
  | comma h h' =>
      rw [List.append_assoc]
      exact Ends.append h (Ends.cons (by decide) _)

/-- What stands behind an item is no part of a number. -/
theorem Items.ends {α : Type} {Item : α → List Char → Prop} {as : List α} {text rest : List Char}
    (h : Items Item false as text) (hrest : Ends rest) : Ends (text ++ rest) := by
  cases h with
  | done hb => exact Ends.append hb hrest
  | more hgap =>
      rw [List.append_assoc]
      exact hgap.ends

/-! ## The next item -/

theorem finds_noElement {b : List Char} (hb : Blank b) (first : Bool) (rest : List Char)
    (p : Position) :
    Finds (nextElement first ⟨b ++ ']' :: rest, p⟩) (some false) (']' :: rest) := by
  obtain ⟨q, hq⟩ := Cursor.skipBlank_append hb (show Cursor.isBlank ']' = false by decide) rest p
  unfold nextElement
  simp only [hq]
  exact Finds.ok _ _ _

theorem finds_nextElement {first : Bool} {gap cs : List Char} (hgap : Gap first gap)
    (hcs : Opens cs) (p : Position) :
    Finds (nextElement first ⟨gap ++ cs, p⟩) (some true) cs := by
  obtain ⟨d, ds, rfl, hblank, hne⟩ := hcs
  cases hgap with
  | first hb =>
      obtain ⟨q, hq⟩ := Cursor.skipBlank_append hb hblank ds p
      unfold nextElement
      simp only [hq, if_true]
      exact Finds.ok _ _ _
  | @comma b b' hb hb' =>
      obtain ⟨q, hq⟩ :=
        Cursor.skipBlank_append hb (show Cursor.isBlank ',' = false by decide) (b' ++ d :: ds) p
      obtain ⟨q', hq'⟩ := Cursor.skipBlank_append hb' hblank ds (q.after ',')
      rw [List.append_assoc, List.cons_append]
      unfold nextElement
      simp only [hq, Cursor.advance, hq', Bool.false_eq_true, if_false]
      show Finds (if ',' = ',' then _ else _) _ _
      rw [if_pos rfl]
      split
      · rename_i heq
        exact absurd heq (List.cons_ne_nil d ds)
      · rename_i heq
        exact absurd (List.cons.inj heq).1 hne
      · exact Finds.ok _ _ _

theorem exists_gap_of_nextElement (first : Bool) (c : Cursor) :
    Yields (nextElement first c) fun p =>
      if p.1 then ∃ gap, Gap first gap ∧ c.rest = gap ++ p.2.rest
      else ∃ b rest, Blank b ∧ p.2.rest = ']' :: rest ∧ c.rest = b ++ p.2.rest := by
  obtain ⟨b, hb, hrest⟩ := c.exists_blank
  unfold nextElement
  simp only
  split
  · exact .error _
  · rename_i rest hclose
    exact .ok ⟨b, rest, hb, hclose, hrest⟩
  · rename_i d ds _ hnext
    split_ifs with hfirst hcomma
    · subst hfirst
      exact .ok ⟨b, .first hb, hrest⟩
    · obtain ⟨b', hb', hrest'⟩ := c.skipBlank.advance.exists_blank
      have hgap : c.rest = b ++ ',' :: b' ++ c.skipBlank.advance.skipBlank.rest := by
        rw [hrest, hnext, hcomma, ← Cursor.rest_advance hnext, hrest', List.append_assoc,
          List.cons_append]
      split
      · exact .error _
      · exact .error _
      · rw [Bool.eq_false_iff.mpr hfirst]
        exact .ok ⟨b ++ ',' :: b', .comma hb hb', hgap⟩
    · exact .error _

theorem finds_noKey {b : List Char} (hb : Blank b) (first : Bool) (rest : List Char)
    (p : Position) :
    Finds (nextKey first ⟨b ++ '\x7d' :: rest, p⟩) (some none) ('\x7d' :: rest) := by
  obtain ⟨q, hq⟩ := Cursor.skipBlank_append hb (show Cursor.isBlank '\x7d' = false by decide) rest p
  unfold nextKey
  simp only [hq, if_true]
  exact Finds.ok _ _ _

theorem finds_readKey {key : String} {keyText : List Char} (h : StringText key keyText)
    (afterComma : Bool) (rest : List Char) (p : Position) :
    Finds (readKey afterComma ⟨keyText ++ rest, p⟩) (some (some key)) rest := by
  cases h with
  | @mk body h =>
      have hbody : '"' :: (body ++ ['"']) ++ rest = '"' :: (body ++ '"' :: rest) := by simp
      rw [hbody]
      exact (finds_readString h rest _).then fun q => Finds.ok _ _ q

theorem finds_nextKey {first : Bool} {gap keyText : List Char} {key : String}
    (hgap : Gap first gap) (hkey : StringText key keyText) (rest : List Char) (p : Position) :
    Finds (nextKey first ⟨gap ++ (keyText ++ rest), p⟩) (some (some key)) rest := by
  have hread := finds_readKey hkey
  obtain ⟨ds, rfl⟩ := hkey.exists_cons
  have hquote : Cursor.isBlank '"' = false := by decide
  cases hgap with
  | first hb =>
      obtain ⟨q, hq⟩ := Cursor.skipBlank_append hb hquote (ds ++ rest) p
      unfold nextKey
      rw [List.cons_append]
      simp only [hq, if_true]
      exact hread false rest q
  | @comma b b' hb hb' =>
      obtain ⟨q, hq⟩ := Cursor.skipBlank_append hb (show Cursor.isBlank ',' = false by decide)
        (b' ++ '"' :: (ds ++ rest)) p
      obtain ⟨q', hq'⟩ := Cursor.skipBlank_append hb' hquote (ds ++ rest) (q.after ',')
      rw [List.append_assoc, List.cons_append, List.cons_append]
      unfold nextKey
      simp only [hq, Cursor.advance, hq', Bool.false_eq_true, if_false, if_true]
      exact hread true rest q'

theorem exists_keyText (afterComma : Bool) (c : Cursor) :
    Yields (readKey afterComma c) fun p => ∃ key keyText, p.1 = some key ∧
      StringText key keyText ∧ c.rest = keyText ++ p.2.rest := by
  unfold readKey
  split
  · exact .error _
  · rename_i d ds hrest
    split_ifs with hquote
    · refine (exists_stringText c.advance).bind fun ⟨key, c₁⟩ ⟨body, hbody, hends⟩ => .ok ?_
      refine ⟨key, _, rfl, .mk hbody, ?_⟩
      rw [hrest, hquote, ← Cursor.rest_advance hrest, hends]
      simp
    · exact .error _
    · exact .error _

theorem exists_gap_of_nextKey (first : Bool) (c : Cursor) :
    Yields (nextKey first c) fun p =>
      match p.1 with
      | some key => ∃ gap keyText, Gap first gap ∧ StringText key keyText ∧
          c.rest = gap ++ (keyText ++ p.2.rest)
      | none => ∃ b rest, Blank b ∧ p.2.rest = '\x7d' :: rest ∧ c.rest = b ++ p.2.rest := by
  obtain ⟨b, hb, hrest⟩ := c.exists_blank
  unfold nextKey
  simp only
  split
  · exact .error _
  · rename_i d ds hnext
    split_ifs with hclose hfirst hcomma
    · exact .ok ⟨b, ds, hb, hclose ▸ hnext, hrest⟩
    · subst hfirst
      refine (exists_keyText false c.skipBlank).mono ?_
      rintro ⟨_, c₁⟩ ⟨key, keyText, rfl, hkey, hends⟩
      exact ⟨b, keyText, .first hb, hkey, hends ▸ hrest⟩
    · obtain ⟨b', hb', hrest'⟩ := c.skipBlank.advance.exists_blank
      refine (exists_keyText true c.skipBlank.advance.skipBlank).mono ?_
      rintro ⟨_, c₁⟩ ⟨key, keyText, rfl, hkey, hends⟩
      rw [Bool.eq_false_iff.mpr hfirst]
      refine ⟨_, keyText, .comma hb hb', hkey, ?_⟩
      rw [hrest, hnext, hcomma, ← Cursor.rest_advance hnext, hrest', hends, List.append_assoc,
        List.cons_append]
    · exact .error _

theorem reaches_readColon {b : List Char} (hb : Blank b) (rest : List Char) (p : Position) :
    Reaches (readColon ⟨b ++ ':' :: rest, p⟩) rest := by
  obtain ⟨q, hq⟩ := Cursor.skipBlank_append hb (show Cursor.isBlank ':' = false by decide) rest p
  unfold readColon
  simp only [hq]
  exact Reaches.ok _ _

theorem exists_colon (c : Cursor) :
    Yields (readColon c) fun c' => ∃ b, Blank b ∧ c.rest = b ++ ':' :: c'.rest := by
  obtain ⟨b, hb, hrest⟩ := c.exists_blank
  unfold readColon
  simp only
  split
  · exact .error _
  · rename_i ds hnext
    exact .ok ⟨b, hb, by rw [hrest, hnext, Cursor.rest_advance hnext]⟩
  · exact .error _

/-! ## All items -/

section Loops

variable {α σ ε : Type} (fault : Error → ε)

section Elements

variable {step : σ → Cursor → Except ε (σ × Cursor)} {next : σ → α → Option σ}

theorem finds_foldElements {Item : α → List Char → Prop} {first : Bool} {as : List α}
    {text : List Char} (h : Items Item first as text) (hopens : ∀ a cs, Item a cs → Opens cs)
    (hstep : ∀ s a cs rest p, Item a cs → Ends rest →
      Finds (step s ⟨cs ++ rest, p⟩) (next s a) rest)
    {steps : List Char} (hsteps : text.length < steps.length) (s : σ) (rest : List Char)
    (p : Position) :
    Finds (foldElements fault step steps first s ⟨text ++ ']' :: rest, p⟩) (as.foldlM next s)
      (']' :: rest) := by
  induction h generalizing steps s p with
  | done hb =>
      cases steps with
      | nil => exact absurd hsteps (Nat.not_lt_zero _)
      | cons c steps =>
          obtain ⟨q, hq⟩ := finds_noElement hb _ rest p
          rw [foldElements, hq]
          exact Finds.ok _ _ _
  | @more first a as gap cs text hgap ha h ih =>
      cases steps with
      | nil => exact absurd hsteps (Nat.not_lt_zero _)
      | cons c steps =>
          obtain ⟨d, ds, rfl, hd⟩ := hopens a cs ha
          obtain ⟨q, hq⟩ := finds_nextElement hgap ⟨d, ds ++ (text ++ ']' :: rest), rfl, hd⟩ p
          have hlength : text.length < steps.length := by
            simp only [List.length_append, List.length_cons] at hsteps
            omega
          have hends : Ends (text ++ ']' :: rest) := h.ends (Ends.cons (by decide) rest)
          rw [List.append_assoc, List.append_assoc, List.cons_append, foldElements, hq,
            List.foldlM_cons]
          have hitem := hstep s a (d :: ds) (text ++ ']' :: rest) q ha hends
          rw [List.cons_append] at hitem
          cases hnext : next s a with
          | none =>
              rw [hnext] at hitem
              obtain ⟨e, he⟩ := hitem
              simp only [he]
              exact Finds.error _ _
          | some s' =>
              rw [hnext] at hitem
              obtain ⟨q', hq'⟩ := hitem
              simp only [hq']
              exact ih hlength s' q'

/-- What a loop has passed over is a list of items; the states are told by the items so far. -/
theorem exists_items_of_foldElements (Item : α → List Char → Prop) (Reached : σ → List α → Prop)
    (hne : ∀ a cs, Item a cs → cs ≠ [])
    (hstep : ∀ s as c, Reached s as → Yields (step s c) fun p => ∃ a b cs, Blank b ∧ Item a cs ∧
      Reached p.1 (as ++ [a]) ∧ c.rest = b ++ (cs ++ p.2.rest))
    (steps : List Char) (first : Bool) {s : σ} (before : List α) (hs : Reached s before)
    (c : Cursor) (hsteps : c.rest.length < steps.length) :
    Yields (foldElements fault step steps first s c) fun p => ∃ as text rest,
      Items Item first as text ∧ Reached p.1 (before ++ as) ∧ p.2.rest = ']' :: rest ∧
        c.rest = text ++ p.2.rest := by
  induction steps generalizing first s before c with
  | nil => exact absurd hsteps (Nat.not_lt_zero _)
  | cons d steps ih =>
      have hnext := exists_gap_of_nextElement first c
      rw [foldElements]
      split
      · exact .error _
      · rename_i c₁ hread
        obtain ⟨b, rest, hb, hclose, hends⟩ := hnext _ hread
        exact .ok ⟨[], b, rest, .done hb, (List.append_nil before).symm ▸ hs, hclose, hends⟩
      · rename_i c₁ hread
        obtain ⟨gap, hgap, hends⟩ := hnext _ hread
        simp only at hends
        split
        · exact .error _
        · rename_i s' c₂ hitem
          obtain ⟨a, b, cs, hb, ha, hs', hends'⟩ := hstep s before c₁ hs _ hitem
          simp only at hends' hs'
          have hlength : c₂.rest.length < steps.length := by
            have hpos := List.length_pos_iff.mpr (hne a cs ha)
            rw [hends, hends'] at hsteps
            simp only [List.length_append, List.length_cons] at hsteps
            omega
          refine (ih false _ hs' c₂ hlength).mono ?_
          rintro p ⟨as, text, rest, htext, hreached, hclose, hends''⟩
          refine ⟨a :: as, _, rest, .more (hgap.append_blank hb) ha htext, ?_, hclose, ?_⟩
          · rwa [List.append_assoc, List.singleton_append] at hreached
          · rw [hends, hends', hends'']
            simp only [List.append_assoc]

end Elements

section Members

variable {step : σ → String → Cursor → Except ε (σ × Cursor)} {next : σ → String × α → Option σ}

theorem finds_foldMembers {Item : String → α → List Char → Prop} {first : Bool}
    {ms : List (String × α)} {text : List Char} (h : Items (MemberText Item) first ms text)
    (hstep : ∀ s key a b b' cs rest p, Blank b → Blank b' → Item key a cs → Ends rest →
      Finds (step s key ⟨b ++ ':' :: (b' ++ (cs ++ rest)), p⟩) (next s (key, a)) rest)
    {steps : List Char} (hsteps : text.length < steps.length) (s : σ) (rest : List Char)
    (p : Position) :
    Finds (foldMembers fault step steps first s ⟨text ++ '\x7d' :: rest, p⟩) (ms.foldlM next s)
      ('\x7d' :: rest) := by
  induction h generalizing steps s p with
  | done hb =>
      cases steps with
      | nil => exact absurd hsteps (Nat.not_lt_zero _)
      | cons c steps =>
          obtain ⟨q, hq⟩ := finds_noKey hb _ rest p
          rw [foldMembers, hq]
          exact Finds.ok _ _ _
  | @more first m ms gap cs text hgap hm h ih =>
      cases steps with
      | nil => exact absurd hsteps (Nat.not_lt_zero _)
      | cons c steps =>
          cases hm with
          | @mk key a keyText b b' cs hkey hb hb' ha =>
              have htail : gap ++ (keyText ++ (b ++ ':' :: (b' ++ cs)) ++ text) ++ '\x7d' :: rest =
                  gap ++ (keyText ++ (b ++ ':' :: (b' ++ (cs ++ (text ++ '\x7d' :: rest))))) := by
                simp only [List.append_assoc, List.cons_append]
              have hlength : text.length < steps.length := by
                have hmember : MemberText Item (key, a) _ := .mk hkey hb hb' ha
                have hpos := List.length_pos_iff.mpr hmember.ne_nil
                simp only [List.length_append, List.length_cons] at hsteps hpos
                omega
              have hends : Ends (text ++ '\x7d' :: rest) := h.ends (Ends.cons (by decide) rest)
              obtain ⟨q, hq⟩ := finds_nextKey hgap hkey
                (b ++ ':' :: (b' ++ (cs ++ (text ++ '\x7d' :: rest)))) p
              have hitem := hstep s key a b b' cs (text ++ '\x7d' :: rest) q hb hb' ha hends
              rw [htail, foldMembers, hq, List.foldlM_cons]
              cases hnext : next s (key, a) with
              | none =>
                  rw [hnext] at hitem
                  obtain ⟨e, he⟩ := hitem
                  simp only [he]
                  exact Finds.error _ _
              | some s' =>
                  rw [hnext] at hitem
                  obtain ⟨q', hq'⟩ := hitem
                  simp only [hq']
                  exact ih hlength s' q'

theorem exists_items_of_foldMembers (Item : String → α → List Char → Prop)
    (Reached : σ → List (String × α) → Prop)
    (hstep : ∀ s ms key c, Reached s ms → Yields (step s key c) fun p => ∃ a b b' cs, Blank b ∧
      Blank b' ∧ Item key a cs ∧ Reached p.1 (ms ++ [(key, a)]) ∧
        c.rest = b ++ ':' :: (b' ++ (cs ++ p.2.rest)))
    (steps : List Char) (first : Bool) {s : σ} (before : List (String × α))
    (hs : Reached s before) (c : Cursor) (hsteps : c.rest.length < steps.length) :
    Yields (foldMembers fault step steps first s c) fun p => ∃ ms text rest,
      Items (MemberText Item) first ms text ∧ Reached p.1 (before ++ ms) ∧
        p.2.rest = '\x7d' :: rest ∧ c.rest = text ++ p.2.rest := by
  induction steps generalizing first s before c with
  | nil => exact absurd hsteps (Nat.not_lt_zero _)
  | cons d steps ih =>
      have hnext := exists_gap_of_nextKey first c
      rw [foldMembers]
      split
      · exact .error _
      · rename_i c₁ hread
        obtain ⟨b, rest, hb, hclose, hends⟩ := hnext _ hread
        exact .ok ⟨[], b, rest, .done hb, (List.append_nil before).symm ▸ hs, hclose, hends⟩
      · rename_i key c₁ hread
        obtain ⟨gap, keyText, hgap, hkey, hends⟩ := hnext _ hread
        simp only at hends
        split
        · exact .error _
        · rename_i s' c₂ hitem
          obtain ⟨a, b, b', cs, hb, hb', ha, hs', hends'⟩ := hstep s before key c₁ hs _ hitem
          simp only at hends' hs'
          have hlength : c₂.rest.length < steps.length := by
            rw [hends, hends'] at hsteps
            simp only [List.length_append, List.length_cons] at hsteps
            omega
          refine (ih false _ hs' c₂ hlength).mono ?_
          rintro p ⟨ms, text, rest, htext, hreached, hclose, hends''⟩
          refine ⟨(key, a) :: ms, _, rest, .more hgap (.mk hkey hb hb' ha) htext, ?_, hclose, ?_⟩
          · rwa [List.append_assoc, List.singleton_append] at hreached
          · rw [hends, hends', hends'']
            simp only [List.append_assoc, List.cons_append]

end Members

end Loops

end Json
end GrammarRecords
