/-
Order and foreign members in the rules of a grammar file.

Of the members of a rule object the decoder sees the values of two keys: the
value of `type`, and the value of the key that the tag makes it look for.  Each
key has to have just one.  So neither the order of the members nor a member with
another key is seen, and this passes from an expression to the one around it
(`Rearranged`).  A file with rearranged rules is loaded as the same grammar,
whatever else changes between the texts: `ofFileText_rearranged`.
-/
import GrammarRecords.Proofs.Grammar.FileText

namespace GrammarRecords

open Json (Value)

/-! ## What the decoder sees -/

namespace Expression

def valuesOf (key : String) (ms : List (String × Value)) : List Value :=
  (ms.filter fun m => m.1 = key).map Prod.snd

/-- The value of a key that is not repeated. -/
def value? (key : String) (ms : List (String × Value)) : Option Value :=
  match valuesOf key ms with
  | [v] => some v
  | _ => none

/-- What the value of the payload becomes. -/
def built? (tag : Tag) (v : Value) : Option Expression :=
  (tag.build v (fun _ => ofJson v) (fun _ => ofSequence v)).toOption

section Members

variable {key : String} {v : Value} {ms : List (String × Value)}

theorem valuesOf_cons_self (key : String) (v : Value) (ms : List (String × Value)) :
    valuesOf key ((key, v) :: ms) = v :: valuesOf key ms := by
  simp [valuesOf]

theorem valuesOf_cons_of_ne {k : String} (h : k ≠ key) (v : Value) (ms : List (String × Value)) :
    valuesOf key ((k, v) :: ms) = valuesOf key ms := by
  simp [valuesOf, h]

theorem value?_cons_of_ne {k : String} (h : k ≠ key) (v : Value) (ms : List (String × Value)) :
    value? key ((k, v) :: ms) = value? key ms := by
  rw [value?, valuesOf_cons_of_ne h, value?]

theorem value?_cons_self (key : String) (v : Value) (ms : List (String × Value)) :
    value? key ((key, v) :: ms) = if (valuesOf key ms).isEmpty then some v else none := by
  rw [value?, valuesOf_cons_self]
  cases valuesOf key ms with
  | nil => rfl
  | cons w ws => rfl

end Members

theorem toOption_find_some (tag : Tag) (ms : List (String × Value)) :
    (Tag.find (some tag) ms).toOption =
      if (valuesOf "type" ms).isEmpty then some tag else none := by
  induction ms with
  | nil => rfl
  | cons m ms ih =>
      obtain ⟨key, v⟩ := m
      rw [Tag.find]
      by_cases hkey : key = "type"
      · subst hkey
        rw [if_pos rfl, valuesOf_cons_self]
        rfl
      · rw [if_neg hkey, ih, valuesOf_cons_of_ne hkey]

theorem toOption_find (ms : List (String × Value)) :
    (Tag.find none ms).toOption = (value? "type" ms).bind fun v => (Tag.ofJson v).toOption := by
  induction ms with
  | nil => rfl
  | cons m ms ih =>
      obtain ⟨key, v⟩ := m
      rw [Tag.find]
      by_cases hkey : key = "type"
      · subst hkey
        rw [if_pos rfl, if_neg (by simp), value?_cons_self]
        cases htag : Tag.ofJson v with
        | error e => split_ifs <;> simp [htag, Except.toOption]
        | ok tag =>
            simp only [toOption_find_some]
            split_ifs <;> simp [htag, Except.toOption]
      · rw [if_neg hkey, ih, value?_cons_of_ne hkey]

section Payload

variable {tag : Tag} {key : String} (hkey : tag.key? = some key)

include hkey

theorem toOption_ofMembers_some (e : Expression) (ms : List (String × Value)) :
    (ofMembers tag (some e) ms).toOption =
      if (valuesOf key ms).isEmpty then some e else none := by
  induction ms with
  | nil => rfl
  | cons m ms ih =>
      obtain ⟨k, v⟩ := m
      rw [ofMembers, hkey]
      by_cases hk : k = key
      · subst hk
        rw [if_pos rfl, valuesOf_cons_self]
        rfl
      · have hne : ¬ some key = some k := fun h => hk (Option.some.inj h).symm
        rw [if_neg hne, ih, valuesOf_cons_of_ne hk]

theorem toOption_ofMembers (ms : List (String × Value)) :
    (ofMembers tag none ms).toOption = (value? key ms).bind (built? tag) := by
  induction ms with
  | nil =>
      unfold ofMembers
      rw [hkey]
      rfl
  | cons m ms ih =>
      obtain ⟨k, v⟩ := m
      rw [ofMembers, hkey]
      by_cases hk : k = key
      · subst hk
        rw [if_pos rfl, if_neg (by simp), value?_cons_self]
        cases hbuild : tag.build v (fun _ => ofJson v) fun _ => ofSequence v with
        | error e =>
            show none = _
            split_ifs <;> simp [built?, hbuild, Except.toOption]
        | ok e =>
            have hrest := toOption_ofMembers_some hkey e ms
            show (ofMembers tag (some e) ms).toOption = _
            rw [hrest]
            split_ifs <;> simp [built?, hbuild, Except.toOption]
      · have hne : ¬ some key = some k := fun h => hk (Option.some.inj h).symm
        rw [if_neg hne, ih, value?_cons_of_ne hk]

end Payload

theorem toOption_ofMembers_of_none {tag : Tag} (hkey : tag.key? = none)
    (ms : List (String × Value)) : (ofMembers tag none ms).toOption = some .blank := by
  induction ms with
  | nil =>
      unfold ofMembers
      rw [hkey]
      rfl
  | cons m ms ih => rw [ofMembers, hkey, if_neg (Option.some_ne_none m.1).symm, ih]

/-- What an object with this tag decodes to. -/
def payload? (ms : List (String × Value)) (tag : Tag) : Option Expression :=
  match tag.key? with
  | none => some .blank
  | some key => (value? key ms).bind (built? tag)

theorem toOption_ofJson_object (ms : List (String × Value)) :
    (ofJson (.object ms)).toOption =
      ((value? "type" ms).bind fun v => (Tag.ofJson v).toOption).bind (payload? ms) := by
  rw [← toOption_find, ofJson]
  cases Tag.find none ms with
  | error e => rfl
  | ok tag =>
      show (ofMembers tag none ms).toOption = payload? ms tag
      unfold payload?
      cases hkey : tag.key? with
      | none => exact toOption_ofMembers_of_none hkey ms
      | some key => exact toOption_ofMembers hkey ms

theorem toOption_ofFields (tag : Tag) (v : Value) (vs : List Value) :
    (ofFields tag (v :: vs)).toOption =
      if tag.key?.isNone || !vs.isEmpty then none else built? tag v := by
  rw [ofFields]
  cases tag.key?.isNone with
  | true => rfl
  | false =>
      unfold built?
      cases tag.build v (fun _ => ofJson v) fun _ => ofSequence v with
      | error e => cases vs <;> rfl
      | ok e => cases vs <;> rfl

theorem toOption_map_congr {α β : Type} {r r' : Except Mismatch α} (f : α → β)
    (h : r.toOption = r'.toOption) : (f <$> r).toOption = (f <$> r').toOption := by
  have hmap (r : Except Mismatch α) : (f <$> r).toOption = r.toOption.map f := by
    cases r <;> rfl
  rw [hmap, hmap, h]

theorem toOption_ofJsonAll {v w : Value} (h : (ofJson v).toOption = (ofJson w).toOption)
    (vs ws : List Value) :
    (ofJsonAll (vs ++ v :: ws)).toOption = (ofJsonAll (vs ++ w :: ws)).toOption := by
  have hcons (v : Value) (vs : List Value) : (ofJsonAll (v :: vs)).toOption =
      (ofJson v).toOption.bind fun e => (ofJsonAll vs).toOption.map fun es => e :: es := by
    rw [ofJsonAll]
    cases ofJson v with
    | error e => rfl
    | ok e => cases ofJsonAll vs <;> rfl
  induction vs with
  | nil => rw [List.nil_append, List.nil_append, hcons, hcons, h]
  | cons u vs ih => rw [List.cons_append, List.cons_append, hcons, hcons, ih]

end Expression

/-! ## Rearranging -/

/-- The places in the payload of a rule with this tag where another rule stands. -/
inductive Slot (tag : Tag) : (Value → Value) → Prop
  | content {f : Expression → Expression} (h : tag.payload = .expression f) : Slot tag id
  | element {f : List Expression → Expression} (h : tag.payload = .expressions f)
      (vs ws : List Value) : Slot tag fun v => .array (vs ++ v :: ws)

/--
Rules that differ in the order of members, and in members that their tags have
no use for, at any depth.  A member is added or changed at the front, because the
order allows to have it there.
-/
inductive Rearranged : Value → Value → Prop
  | refl (v : Value) : Rearranged v v
  | symm {v w : Value} (h : Rearranged v w) : Rearranged w v
  | trans {u v w : Value} (h : Rearranged u v) (h' : Rearranged v w) : Rearranged u w
  | permuted {ms ns : List (String × Value)} (h : ms.Perm ns) : Rearranged (.object ms) (.object ns)
  | added {ms : List (String × Value)} {tag : Tag} {key : String} {v : Value}
      (htag : Tag.find none ms = .ok tag) (htype : key ≠ "type") (hkey : tag.key? ≠ some key)
      (hv : v.isScalar = true) : Rearranged (.object ms) (.object ((key, v) :: ms))
  | inObject {ms : List (String × Value)} {tag : Tag} {key : String} {slot : Value → Value}
      {v w : Value} (htag : Tag.find none ms = .ok tag) (hkey : tag.key? = some key)
      (hslot : Slot tag slot) (h : Rearranged v w) :
      Rearranged (.object ((key, slot v) :: ms)) (.object ((key, slot w) :: ms))
  | inArray {tag : Tag} {t : Value} {vs : List Value} {slot : Value → Value} {v w : Value}
      (htag : Tag.ofJson t = .ok tag) (hslot : Slot tag slot) (h : Rearranged v w) :
      Rearranged (.array (t :: slot v :: vs)) (.array (t :: slot w :: vs))

/-- Rules that the reader of a file does not tell apart, at the top or inside another rule. -/
structure SameRule (v w : Value) : Prop where
  fits : ∀ k, v.fits k = w.fits k
  named : GrammarFile.hasNamedTag v = GrammarFile.hasNamedTag w
  decoded : (Expression.ofJson v).toOption = (Expression.ofJson w).toOption

namespace SameRule

open Expression (value? valuesOf built? payload?)

theorem rule?_eq {v w : Value} (h : SameRule v w) : GrammarFile.rule? v = GrammarFile.rule? w := by
  unfold GrammarFile.rule?
  rw [h.fits, h.named, h.decoded]

theorem value?_perm {ms ns : List (String × Value)} (h : ms.Perm ns) (key : String) :
    value? key ms = value? key ns := by
  have hvalues : (valuesOf key ms).Perm (valuesOf key ns) := (h.filter _).map _
  have hlength := hvalues.length_eq
  unfold value?
  cases hms : valuesOf key ms with
  | nil =>
      rw [hms] at hvalues
      rw [hvalues.nil_eq]
  | cons v vs =>
      cases vs with
      | nil =>
          rw [hms] at hvalues
          rw [List.singleton_perm.mp hvalues]
      | cons w vs =>
          cases hns : valuesOf key ns with
          | nil => rfl
          | cons v' vs' =>
              cases vs' with
              | nil =>
                  rw [hms, hns] at hlength
                  exact absurd (Nat.succ.inj hlength) (Nat.succ_ne_zero _)
              | cons w' vs' => rfl

theorem permuted {ms ns : List (String × Value)} (h : ms.Perm ns) :
    SameRule (.object ms) (.object ns) where
  fits := by
    rintro (_ | k)
    · rfl
    · exact h.all_eq
  named := h.all_eq
  decoded := by
    have hpayload (tag : Tag) : payload? ms tag = payload? ns tag := by
      unfold payload?
      simp only [value?_perm h]
    rw [Expression.toOption_ofJson_object, Expression.toOption_ofJson_object, value?_perm h,
      funext hpayload]

theorem added {ms : List (String × Value)} {tag : Tag} {key : String} {v : Value}
    (htag : Tag.find none ms = .ok tag) (htype : key ≠ "type") (hkey : tag.key? ≠ some key)
    (hv : v.isScalar = true) : SameRule (.object ms) (.object ((key, v) :: ms)) where
  fits := by
    rintro (_ | k)
    · rfl
    · show _ = (v.fits k && _)
      rw [Json.Value.fits_of_isScalar hv k]
      rfl
  named := by
    show _ = ((key ≠ "type" || _) && _)
    simp only [ne_eq, htype, not_false_eq_true, decide_true, Bool.true_or, Bool.true_and]
    rfl
  decoded := by
    have hfound : ((value? "type" ms).bind fun v => (Tag.ofJson v).toOption) = some tag := by
      rw [← Expression.toOption_find, htag]
      rfl
    rw [Expression.toOption_ofJson_object, Expression.toOption_ofJson_object,
      Expression.value?_cons_of_ne htype, hfound]
    show payload? ms tag = payload? ((key, v) :: ms) tag
    unfold payload?
    cases hpayload : tag.key? with
    | none => rfl
    | some k =>
        have hne : key ≠ k := fun h => hkey (h ▸ hpayload)
        simp only [Expression.value?_cons_of_ne hne]

section Slots

variable {tag : Tag} {slot : Value → Value} (hslot : Slot tag slot) {v w : Value}
  (h : SameRule v w)

include hslot h

theorem fits_slot (k : Nat) : (slot v).fits k = (slot w).fits k := by
  cases hslot with
  | content => exact h.fits k
  | element _ vs ws =>
      cases k with
      | zero => rfl
      | succ k =>
          show (vs ++ v :: ws).all _ = (vs ++ w :: ws).all _
          rw [List.all_append, List.all_append, List.all_cons, List.all_cons, h.fits k]

theorem built?_slot : built? tag (slot v) = built? tag (slot w) := by
  unfold built? Tag.build
  cases hslot with
  | content htag =>
      rw [htag]
      exact Expression.toOption_map_congr _ h.decoded
  | element htag vs ws =>
      rw [htag]
      exact Expression.toOption_map_congr _ (Expression.toOption_ofJsonAll h.decoded vs ws)

end Slots

theorem inObject {ms : List (String × Value)} {tag : Tag} {key : String} {slot : Value → Value}
    {v w : Value} (htag : Tag.find none ms = .ok tag) (hkey : tag.key? = some key)
    (hslot : Slot tag slot) (h : SameRule v w) :
    SameRule (.object ((key, slot v) :: ms)) (.object ((key, slot w) :: ms)) where
  fits := by
    rintro (_ | k)
    · rfl
    · show ((slot v).fits k && _) = ((slot w).fits k && _)
      rw [fits_slot hslot h k]
  named := by
    have htype : key ≠ "type" := fun h => GrammarFile.key?_ne_type tag (h ▸ hkey)
    show ((key ≠ "type" || _) && _) = ((key ≠ "type" || _) && _)
    simp only [ne_eq, htype, not_false_eq_true, decide_true, Bool.true_or, Bool.true_and]
  decoded := by
    have htype : key ≠ "type" := fun h => GrammarFile.key?_ne_type tag (h ▸ hkey)
    have hfound : ((value? "type" ms).bind fun v => (Tag.ofJson v).toOption) = some tag := by
      rw [← Expression.toOption_find, htag]
      rfl
    rw [Expression.toOption_ofJson_object, Expression.toOption_ofJson_object,
      Expression.value?_cons_of_ne htype, Expression.value?_cons_of_ne htype, hfound]
    show payload? ((key, slot v) :: ms) tag = payload? ((key, slot w) :: ms) tag
    unfold payload?
    rw [hkey]
    simp only [Expression.value?_cons_self]
    split_ifs
    · exact built?_slot hslot h
    · rfl

theorem inArray {tag : Tag} {t : Value} {vs : List Value} {slot : Value → Value} {v w : Value}
    (htag : Tag.ofJson t = .ok tag) (hslot : Slot tag slot) (h : SameRule v w) :
    SameRule (.array (t :: slot v :: vs)) (.array (t :: slot w :: vs)) where
  fits := by
    rintro (_ | k)
    · rfl
    · show (t.fits k && ((slot v).fits k && _)) = (t.fits k && ((slot w).fits k && _))
      rw [fits_slot hslot h k]
  named := rfl
  decoded := by
    rw [Expression.ofJson, Expression.ofJson, htag]
    show (Expression.ofFields tag (slot v :: vs)).toOption =
      (Expression.ofFields tag (slot w :: vs)).toOption
    rw [Expression.toOption_ofFields, Expression.toOption_ofFields, built?_slot hslot h]

end SameRule

theorem Rearranged.sameRule {v w : Value} (h : Rearranged v w) : SameRule v w := by
  induction h with
  | refl v => exact ⟨fun _ => rfl, rfl, rfl⟩
  | symm h ih => exact ⟨fun k => (ih.fits k).symm, ih.named.symm, ih.decoded.symm⟩
  | trans h h' ih ih' =>
      exact ⟨fun k => (ih.fits k).trans (ih'.fits k), ih.named.trans ih'.named,
        ih.decoded.trans ih'.decoded⟩
  | permuted h => exact .permuted h
  | added htag htype hkey hv => exact .added htag htype hkey hv
  | inObject htag hkey hslot h ih => exact .inObject htag hkey hslot ih
  | inArray htag hslot h ih => exact .inArray htag hslot ih

/-! ## Files -/

namespace Grammar

open GrammarFile (FileText table?)

theorem table?_rearranged {rules rules' : List (String × Value)}
    (h : List.Forall₂ (fun r r' => r.1 = r'.1 ∧ Rearranged r.2 r'.2) rules rules') :
    table? rules = table? rules' := by
  unfold table?
  generalize Table.empty = t
  induction h generalizing t with
  | nil => rfl
  | cons hrule hrules ih =>
      rw [List.foldlM_cons, List.foldlM_cons, hrule.1, hrule.2.sameRule.rule?_eq]
      exact congrArg _ (funext ih)

/--
A text that is loaded is the text of a file, and every text of a file with the
same name and rearranged rules is loaded as the same grammar.
-/
theorem ofFileText_rearranged {text : String} {g : Grammar} (h : ofFileText text = .ok g) :
    (∃ name rules, FileText name rules text.toList) ∧
      ∀ {name rules rules' text'}, FileText name rules text.toList →
        List.Forall₂ (fun r r' => r.1 = r'.1 ∧ Rearranged r.2 r'.2) rules rules' →
          FileText name rules' text'.toList → ofFileText text' = .ok g := by
  refine ⟨exists_fileText h, fun {name rules rules' text'} htext hrules htext' => ?_⟩
  rw [ofFileText_eq_ok_iff htext, table?_rearranged hrules] at h
  exact (ofFileText_eq_ok_iff htext').mpr h

/-- A sequence of a symbol and a field, every object with its tag in front. -/
def tidyRules : List (String × Value) :=
  [("a", .object [("type", .string "SEQ"), ("members", .array [
    .object [("type", .string "SYMBOL"), ("name", .string "b")],
    .object [("type", .string "FIELD"), ("name", .string "f"),
      ("content", .object [("type", .string "STRING"), ("value", .string "x")])]])])]

/-- The same with the tags behind, and with other members that are of no use. -/
def untidyRules : List (String × Value) :=
  [("a", .object [("members", .array [
    .object [("name", .string "b"), ("type", .string "SYMBOL"), ("content", .bool true)],
    .object [("content", .object [("value", .string "x"), ("type", .string "STRING")]),
      ("type", .string "FIELD")]]), ("type", .string "SEQ"), ("name", .string "type")])]

theorem rearranged_untidyRules :
    List.Forall₂ (fun r r' => r.1 = r'.1 ∧ Rearranged r.2 r'.2) tidyRules untidyRules := by
  have hswap {m n : String × Value} : Rearranged (.object [m, n]) (.object [n, m]) :=
    .permuted (.swap _ _ [])
  have hturn {l m n : String × Value} : Rearranged (.object [l, m, n]) (.object [m, n, l]) :=
    .permuted (show ([l] ++ [m, n]).Perm ([m, n] ++ [l]) from List.perm_append_comm)
  have hsymbol : Rearranged (.object [("type", .string "SYMBOL"), ("name", .string "b")])
      (.object [("name", .string "b"), ("type", .string "SYMBOL"), ("content", .bool true)]) :=
    hswap.trans ((@Rearranged.added _ .symbol _ _ rfl (by decide) (by decide) rfl).trans hturn)
  have hfield : Rearranged
      (.object [("type", .string "FIELD"), ("name", .string "f"),
        ("content", .object [("type", .string "STRING"), ("value", .string "x")])])
      (.object [("content", .object [("value", .string "x"), ("type", .string "STRING")]),
        ("type", .string "FIELD")]) :=
    (hturn.trans (@Rearranged.added _ .field _ _ rfl (by decide) (by decide) rfl).symm).trans
      (@Rearranged.inObject _ .field _ _ _ _ rfl rfl (.content rfl) hswap)
  have hmembers {v v' w w' : Value} (hv : Rearranged v v') (hw : Rearranged w w') :
      Rearranged (.object [("members", .array [v, w]), ("type", .string "SEQ")])
        (.object [("members", .array [v', w']), ("type", .string "SEQ")]) :=
    (@Rearranged.inObject _ .seq _ _ _ _ rfl rfl (.element rfl [] [w]) hv).trans
      (@Rearranged.inObject _ .seq _ _ _ _ rfl rfl (.element rfl [v'] []) hw)
  exact .cons ⟨rfl, (hswap.trans (hmembers hsymbol hfield)).trans
    ((@Rearranged.added _ .seq _ _ rfl (by decide) (by decide) rfl).trans hturn)⟩ .nil

theorem numberFree_tidyRules : ∀ rule ∈ tidyRules, rule.2.NumberFree := by
  unfold tidyRules
  repeat' first
    | rw [List.forall_mem_cons]
    | exact List.forall_mem_nil _
    | constructor

theorem numberFree_untidyRules : ∀ rule ∈ untidyRules, rule.2.NumberFree := by
  unfold untidyRules
  repeat' first
    | rw [List.forall_mem_cons]
    | exact List.forall_mem_nil _
    | constructor

theorem ofFileText_rearranged_untidyRules :
    let g := ofContents ("g", .ofList [("a", .seq [.symbol "b", .wrapped .field (.string "x")])])
    ofFileText (GrammarFile.printed "g" tidyRules) = .ok g ∧
      ofFileText (GrammarFile.printed "g" untidyRules) = .ok g := by
  intro g
  have htidy := GrammarFile.fileText_printed "g" numberFree_tidyRules
  have huntidy := GrammarFile.fileText_printed "g" numberFree_untidyRules
  have hload : ofFileText (GrammarFile.printed "g" tidyRules) = .ok g :=
    (ofFileText_eq_ok_iff htidy).mpr ⟨_, rfl, rfl⟩
  exact ⟨hload, (ofFileText_rearranged hload).2 htidy rearranged_untidyRules huntidy⟩

end Grammar
end GrammarRecords
