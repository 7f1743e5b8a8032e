/-
Rules of a grammar file, from their texts.

The reader of a file reads a rule in one pass over its text: it looks for the
tag, keeps the other members and decodes them at the end.  The result is that of
decoding the value that the text spells, with two more conditions that only hold
the reader back: the brackets in the rule are within a bound, and the tag is
given by a name (`rule?`).  The pass over the members is a fold, and `metMember`
tells it without the text.
-/
import GrammarRecords.Grammar.File
import GrammarRecords.Proofs.Json.Spelling.Values

namespace GrammarRecords

open Json (Cursor Position Value Blank Ends Finds Spells within)

namespace Json

def Value.text? : Value → Option String
  | .string s => some s
  | _ => none

end Json

namespace GrammarFile

/-! ## What a rule decodes to -/

/-- A tag of a rule of the file, as opposed to a tag further inside, has to be a name. -/
def hasNamedTag : Value → Bool
  | .array (tag :: _) => tag.text?.isSome
  | .object members => members.all fun m => m.1 ≠ "type" || m.2.text?.isSome
  | _ => true

/-- The expression that is found for a rule, if the rule is one. -/
def rule? (v : Value) : Option Expression :=
  if v.fits (depthInRule + 1) && hasNamedTag v then (Expression.ofJson v).toOption else none

/-! ## Texts and tags -/

theorem exists_error_readForeign {α : Type} (expected : Expected) (c : Cursor) :
    ∃ e, readForeign (α := α) expected c = .error e := by
  unfold readForeign
  split
  · exact ⟨_, rfl⟩
  · exact ⟨_, rfl⟩
  · cases reading (Json.readWith none c) with
    | error e => exact ⟨e, rfl⟩
    | ok p => exact ⟨_, rfl⟩

theorem readForeign_yields {α : Type} {P : α → Prop} (expected : Expected) (c : Cursor) :
    Yields (readForeign expected c) P := by
  obtain ⟨e, he⟩ := exists_error_readForeign (α := α) expected c
  rw [he]
  exact .error e

/-- The first character tells the sorts of values apart that the reader of a file asks for. -/
theorem exists_cons_of_spells {v : Value} {cs : List Char} (h : Spells v cs) :
    ∃ d ds, cs = d :: ds ∧ Cursor.isBlank d = false ∧ (v.text? = none → d ≠ '"') ∧
      (v.isScalar = true → d ≠ '[' ∧ d ≠ '\x7b') := by
  cases h with
  | null => exact ⟨'n', _, rfl, by decide, by decide, by decide⟩
  | true => exact ⟨'t', _, rfl, by decide, by decide, by decide⟩
  | false => exact ⟨'f', _, rfl, by decide, by decide, by decide⟩
  | number h hn =>
      cases h with
      | plain h =>
          obtain ⟨d, ds, rfl, hd⟩ := h.exists_cons
          exact ⟨d, ds, rfl, Json.isBlank_of_isDigit hd, fun _ => Json.ne_of_isDigit hd rfl,
            fun _ => ⟨Json.ne_of_isDigit hd rfl, Json.ne_of_isDigit hd rfl⟩⟩
      | minus h => exact ⟨'-', _, rfl, by decide, fun _ => by decide, fun _ => by decide⟩
  | string h =>
      obtain ⟨ds, rfl⟩ := h.exists_cons
      exact ⟨'"', ds, rfl, by decide, fun hv => absurd hv (Option.some_ne_none _),
        fun _ => by decide⟩
  | array h =>
      exact ⟨'[', _, rfl, by decide, fun _ => by decide, fun hv => absurd hv Bool.false_ne_true⟩
  | object h =>
      exact ⟨'\x7b', _, rfl, by decide, fun _ => by decide, fun hv => absurd hv Bool.false_ne_true⟩

theorem finds_readText {v : Value} {cs b : List Char} (h : Spells v cs) (hb : Blank b)
    (expected : Expected) (rest : List Char) (p : Position) :
    Finds (readText expected ⟨b ++ (cs ++ rest), p⟩) v.text? rest := by
  cases hv : v.text? with
  | none =>
      obtain ⟨d, ds, rfl, hblank, hd, -⟩ := exists_cons_of_spells h
      obtain ⟨q, hq⟩ := Cursor.skipBlank_append hb hblank (ds ++ rest) p
      obtain ⟨e, he⟩ :=
        exists_error_readForeign (α := String × Cursor) expected ⟨d :: ds ++ rest, q⟩
      refine ⟨e, ?_⟩
      unfold readText
      rw [List.cons_append, hq]
      simp only
      split
      · rename_i heq
        exact absurd (List.cons.inj heq).1 (hd hv)
      · exact he
  | some s =>
      cases h with
      | string h =>
          cases h with
          | @mk body h =>
              have hbody : '"' :: (body ++ ['"']) ++ rest = '"' :: (body ++ '"' :: rest) := by simp
              obtain ⟨q, hq⟩ :=
                Cursor.skipBlank_append hb (show Cursor.isBlank '"' = false by decide)
                  (body ++ '"' :: rest) p
              unfold readText
              rw [hbody, hq, ← hv]
              exact (Json.finds_readString h rest _).mapError _
      | _ => exact absurd hv.symm (Option.some_ne_none s)

theorem exists_text (expected : Expected) (c : Cursor) :
    Yields (readText expected c) fun p => ∃ b cs, Blank b ∧ Json.StringText p.1 cs ∧
      c.rest = b ++ (cs ++ p.2.rest) := by
  obtain ⟨b, hb, hblank⟩ := c.exists_blank
  unfold readText
  simp only
  split
  · rename_i ds hrest
    refine (Json.exists_stringText c.skipBlank.advance).mapError.mono ?_
    rintro p ⟨body, hbody, hends⟩
    refine ⟨b, _, hb, .mk hbody, ?_⟩
    rw [hblank, hrest, ← Cursor.rest_advance hrest, hends]
    simp
  · exact readForeign_yields expected c.skipBlank

def tag? (v : Value) : Option Tag :=
  v.text?.bind Tag.ofName?

theorem finds_readTag {v : Value} {cs b : List Char} (h : Spells v cs) (hb : Blank b)
    (rest : List Char) (p : Position) : Finds (readTag ⟨b ++ (cs ++ rest), p⟩) (tag? v) rest := by
  refine (finds_readText h hb .tag rest p).bind fun name q _ => ?_
  unfold Tag.ofText
  simp only
  cases Tag.ofName? name with
  | none => exact Finds.error _ _
  | some tag => exact Finds.ok _ _ _

theorem exists_tagText (c : Cursor) :
    Yields (readTag c) fun p => ∃ b name cs, Blank b ∧ Json.StringText name cs ∧
      c.rest = b ++ (cs ++ p.2.rest) := by
  refine (exists_text .tag c).bind fun ⟨name, c₁⟩ ⟨b, cs, hb, hcs, hends⟩ => ?_
  simp only
  split
  · exact .ok ⟨b, name, cs, hb, hcs, hends⟩
  · exact .error _

theorem ofJson_of_named {v : Value} (h : v.text?.isSome = true) :
    (Tag.ofJson v).toOption = tag? v := by
  obtain ⟨s, hs⟩ := Option.isSome_iff_exists.mp h
  cases v with
  | string name =>
      unfold Tag.ofJson Tag.ofText tag?
      simp only [Json.Value.text?, Option.bind_some]
      cases Tag.ofName? name <;> rfl
  | _ => exact absurd hs.symm (Option.some_ne_none s)

theorem isScalar_of_named {v : Value} (h : v.text?.isSome = true) : v.isScalar = true := by
  cases v with
  | string s => rfl
  | _ => exact absurd h Bool.false_ne_true

/-! ## Objects -/

/-- One step of the pass over the members, for a member that is given as a value. -/
def metMember (s : Members) (m : String × Value) : Option Members :=
  if m.1 = "type" then
    if s.tag.isSome then none else (tag? m.2).map fun tag => ⟨some tag, s.members⟩
  else (within (Value.fits depthInRule) m.2).map fun v => ⟨s.tag, (m.1, v) :: s.members⟩

def Members.parts? (s : Members) : Option (Tag × List (String × Value)) :=
  s.tag.map fun tag => (tag, s.members.reverse)

theorem finds_readMember (s : Members) (key : String) {v : Value} {b b' cs rest : List Char}
    (hb : Blank b) (hb' : Blank b') (h : Spells v cs) (hrest : Ends rest) (p : Position) :
    Finds (readMember s key ⟨b ++ ':' :: (b' ++ (cs ++ rest)), p⟩) (metMember s (key, v)) rest := by
  have hcolon := (Json.reaches_readColon hb (b' ++ (cs ++ rest)) p).mapError Trouble.ofReader
  unfold readMember metMember
  simp only
  split_ifs
  · exact Finds.error _ _
  · refine hcolon.finds fun q => ?_
    exact (finds_readTag h hb' rest q).map fun tag q => ⟨q, rfl⟩
  · refine hcolon.finds fun q => ?_
    exact ((Json.finds_readValue h depthInRule hb' hrest q).mapError _).map fun v q => ⟨q, rfl⟩

theorem finds_readObject {ms : List (String × Value)} {body : List Char}
    (h : Json.Items (Json.MemberText fun _ => Spells) true ms body) (rest : List Char)
    (p : Position) :
    Finds (readObject ⟨body ++ '\x7d' :: rest, p⟩)
      ((ms.foldlM metMember ⟨none, []⟩).bind Members.parts?) rest := by
  have hsteps : body.length < (Json.stepsFrom ⟨body ++ '\x7d' :: rest, p⟩).length := by
    simp only [Json.stepsFrom, List.length_cons, List.length_append]
    omega
  have hfold := Json.finds_foldMembers Trouble.ofReader h
    (fun s key v b b' cs rest p hb hb' hv hrest => finds_readMember s key hb hb' hv hrest p)
    hsteps ⟨none, []⟩ rest p
  refine (hfold.mapError Trouble.leaveObject).bind fun s q _ => ?_
  unfold Members.parts?
  simp only
  cases s.tag with
  | none => exact Finds.error _ _
  | some tag => exact Finds.ok _ _ _

/-- What the reader of a file asks of a member, before any decoding. -/
def isReadable (m : String × Value) : Bool :=
  m.2.fits depthInRule && (m.1 ≠ "type" || m.2.text?.isSome)

/-- The pass over the members finds the tag, and keeps the other members in their order. -/
theorem foldlM_metMember (ms : List (String × Value)) (found : Option Tag)
    (before : List (String × Value)) :
    (ms.foldlM metMember ⟨found, before⟩).bind Members.parts? =
      if ms.all isReadable then
        (Tag.find found ms).toOption.map fun tag =>
          (tag, before.reverse ++ ms.filter fun m => m.1 ≠ "type")
      else none := by
  induction ms generalizing found before with
  | nil =>
      cases found with
      | none => rfl
      | some tag => simp [Members.parts?, Tag.find, Except.toOption]
  | cons m ms ih =>
      obtain ⟨key, v⟩ := m
      rw [List.foldlM_cons, List.all_cons]
      by_cases hkey : key = "type"
      · cases hname : v.text?.isSome with
        | false =>
            have htag : tag? v = none := by
              rw [tag?, Option.isSome_eq_false_iff.mp hname |> Option.isNone_iff_eq_none.mp]
              rfl
            simp [metMember, hkey, htag, isReadable, hname]
        | true =>
            have hreadable : isReadable (key, v) = true := by
              simp [isReadable, hname, Json.Value.fits_of_isScalar (isScalar_of_named hname)]
            rw [hreadable, Bool.true_and, Tag.find, if_pos hkey, metMember, if_pos hkey]
            cases found with
            | some tag => simp [Except.toOption]
            | none =>
                have htag := ofJson_of_named hname
                simp only [Option.isSome_none, Bool.false_eq_true, if_false]
                cases hjson : Tag.ofJson v with
                | error e =>
                    rw [hjson] at htag
                    simp [← htag, Except.toOption]
                | ok tag =>
                    rw [hjson] at htag
                    simp [← htag, Except.toOption, ih, hkey]
      · cases hfits : v.fits depthInRule with
        | false => simp [metMember, hkey, within, hfits, isReadable]
        | true =>
            have hmet : metMember ⟨found, before⟩ (key, v) = some ⟨found, (key, v) :: before⟩ := by
              simp [metMember, hkey, within, hfits]
            have hreadable : isReadable (key, v) = true := by simp [isReadable, hkey, hfits]
            rw [hmet, hreadable, Option.bind_eq_bind, Option.bind_some, ih, Bool.true_and, Tag.find,
              if_neg hkey, List.filter_cons_of_pos (by simpa using hkey), List.reverse_cons,
              List.append_assoc, List.singleton_append]

theorem ofMembers_filter {tag : Tag} (htag : tag.key? ≠ some "type") (found : Option Expression)
    (ms : List (String × Value)) :
    Expression.ofMembers tag found (ms.filter fun m => m.1 ≠ "type") =
      Expression.ofMembers tag found ms := by
  induction ms generalizing found with
  | nil => rfl
  | cons m ms ih =>
      obtain ⟨key, v⟩ := m
      by_cases hkey : key = "type"
      · have hne : ¬ tag.key? = some key := hkey ▸ htag
        rw [List.filter_cons_of_neg (by simpa using hkey), Expression.ofMembers, if_neg hne, ih]
      · rw [List.filter_cons_of_pos (by simpa using hkey), Expression.ofMembers,
          Expression.ofMembers]
        split_ifs
        · rfl
        · cases tag.build v (fun _ => Expression.ofJson v) fun _ => Expression.ofSequence v with
          | error e => rfl
          | ok e => exact ih (some e)
        · exact ih found

theorem key?_ne_type (tag : Tag) : tag.key? ≠ some "type" := by
  cases tag <;> decide

theorem all_isReadable (ms : List (String × Value)) :
    ms.all isReadable = ((Value.object ms).fits (depthInRule + 1) && hasNamedTag (.object ms)) := by
  show _ = ((ms.all fun m => m.2.fits depthInRule) && ms.all _)
  induction ms with
  | nil => rfl
  | cons m ms ih =>
      rw [List.all_cons, List.all_cons, List.all_cons, ih, isReadable]
      simp only [Bool.and_assoc, Bool.and_left_comm]

theorem rule?_object (ms : List (String × Value)) :
    rule? (.object ms) = ((ms.foldlM metMember ⟨none, []⟩).bind Members.parts?).bind
      fun p => (Expression.ofMembers p.1 none p.2).toOption := by
  rw [foldlM_metMember, rule?, ← all_isReadable, Expression.ofJson]
  cases ms.all isReadable with
  | false => rfl
  | true =>
      simp only [if_true]
      cases Tag.find none ms with
      | error e => rfl
      | ok tag =>
          show (Expression.ofMembers tag none ms).toOption =
            (Expression.ofMembers tag none (ms.filter fun m => m.1 ≠ "type")).toOption
          rw [ofMembers_filter (key?_ne_type tag)]

/-! ## Arrays -/

theorem finds_readArray_nil {b : List Char} (hb : Blank b) (rest rest' : List Char) (p : Position) :
    Finds (readArray ⟨b ++ ']' :: rest, p⟩) none rest' := by
  obtain ⟨q, hq⟩ := Json.finds_noElement hb true rest p
  unfold readArray
  rw [hq]
  exact Finds.error _ _

theorem finds_readArray {tag : Value} {vs : List Value} {body : List Char}
    (h : Json.Items Spells true (tag :: vs) body) (rest : List Char) (p : Position) :
    Finds (readArray ⟨body ++ ']' :: rest, p⟩)
      ((tag? tag).bind fun tag => (within (List.all · (Value.fits depthInRule)) vs).map (tag, ·))
      rest := by
  cases h with
  | @more _ _ _ gap cs text hgap htag hvs =>
      rw [List.append_assoc, List.append_assoc]
      have hnext := Json.finds_nextElement hgap (htag.opens.append (text ++ ']' :: rest)) p
      refine (hnext.mapError Trouble.ofReader).then fun q => ?_
      simp only [if_true]
      refine (finds_readTag htag Blank.nil _ q).bind fun tag q _ => ?_
      have hsteps : text.length < (Json.stepsFrom ⟨text ++ ']' :: rest, q⟩).length := by
        simp only [Json.stepsFrom, List.length_cons, List.length_append]
        omega
      rw [← Json.map_foldlM_collect]
      refine Finds.map (Json.finds_foldElements _ hvs (fun _ _ => Spells.opens) ?_ hsteps [] rest q)
        fun vs q => ⟨q.after ']', rfl⟩
      intro vs v cs rest p hv hrest
      have hread := Json.finds_readValue hv depthInRule Blank.nil hrest p
      exact (hread.mapError Trouble.ofReader).map fun v q => ⟨q, rfl⟩

theorem rule?_array (tag : Value) (vs : List Value) :
    rule? (.array (tag :: vs)) =
      ((tag? tag).bind fun tag =>
        (within (List.all · (Value.fits depthInRule)) vs).map (tag, ·)).bind
          fun p => (Expression.ofFields p.1 p.2).toOption := by
  have hfits : (Value.array (tag :: vs)).fits (depthInRule + 1) =
      (tag.fits depthInRule && vs.all (Value.fits depthInRule)) := rfl
  rw [rule?, hfits, hasNamedTag, Expression.ofJson]
  cases hname : tag.text?.isSome with
  | false =>
      rw [tag?, Option.isNone_iff_eq_none.mp (Option.isSome_eq_false_iff.mp hname), Bool.and_false]
      rfl
  | true =>
      rw [← ofJson_of_named hname, Json.Value.fits_of_isScalar (isScalar_of_named hname),
        Bool.true_and, Bool.and_true, within]
      cases vs.all (Value.fits depthInRule) with
      | false => cases Tag.ofJson tag <;> rfl
      | true => cases Tag.ofJson tag <;> rfl

/-! ## Rules -/

theorem finds_decoded (decoded : Except Mismatch Expression) (rest : List Char) (q : Position) :
    Finds (match decoded with
      | .ok e => .ok (e, ⟨rest, q⟩)
      | .error m => .error (Trouble.pending m ⟨rest, q⟩)) decoded.toOption rest := by
  cases decoded with
  | error m => exact Finds.error _ _
  | ok e => exact Finds.ok _ _ _

theorem finds_readRule {v : Value} {cs b : List Char} (h : Spells v cs) (hb : Blank b)
    (rest : List Char) (p : Position) :
    Finds (readRule ⟨b ++ (cs ++ rest), p⟩) (rule? v) rest := by
  have hskip (d : Char) (hd : Cursor.isBlank d = false) (ds : List Char) :=
    Cursor.skipBlank_append hb hd ds p
  cases v with
  | object ms =>
      cases h with
      | @object _ body h =>
          have hbody : '\x7b' :: (body ++ ['\x7d']) ++ rest =
              '\x7b' :: (body ++ '\x7d' :: rest) := by simp
          obtain ⟨q, hq⟩ := hskip '\x7b' (by decide) (body ++ '\x7d' :: rest)
          unfold readRule
          rw [hbody, hq, rule?_object]
          show Finds (readObject _ >>= _) _ _
          exact (finds_readObject h rest _).bind fun p q _ =>
            finds_decoded (Expression.ofMembers p.1 none p.2) rest q
  | array vs =>
      cases h with
      | @array _ body h =>
          have hbody : '[' :: (body ++ [']']) ++ rest = '[' :: (body ++ ']' :: rest) := by simp
          obtain ⟨q, hq⟩ := hskip '[' (by decide) (body ++ ']' :: rest)
          unfold readRule
          rw [hbody, hq]
          show Finds (readArray _ >>= _) _ _
          cases vs with
          | nil =>
              cases h with
              | done hb =>
                  have hnone := finds_readArray_nil hb rest rest (q.after '[')
                  exact hnone.bind (g := fun _ => none) fun _ _ h => nomatch h
          | cons tag vs =>
              rw [rule?_array]
              exact (finds_readArray h rest _).bind fun p q _ =>
                finds_decoded (Expression.ofFields p.1 p.2) rest q
  | _ =>
      obtain ⟨d, ds, rfl, hblank, -, hbracket⟩ := exists_cons_of_spells h
      obtain ⟨q, hq⟩ := hskip d hblank (ds ++ rest)
      obtain ⟨e, he⟩ := exists_error_readForeign (α := Except Mismatch Expression × Cursor)
        .expression ⟨d :: (ds ++ rest), q⟩
      refine ⟨e, ?_⟩
      unfold readRule
      rw [List.cons_append, hq]
      simp only
      split
      · rename_i heq
        exact absurd (List.cons.inj heq).1 (hbracket rfl).2
      · rename_i heq
        exact absurd (List.cons.inj heq).1 (hbracket rfl).1
      · rw [he]
        rfl

/-! ## Whatever is found -/

theorem exists_objectText (c : Cursor) :
    Yields (readObject c) fun p => ∃ ms cs, Spells (.object ms) ('\x7b' :: cs) ∧
      c.rest = cs ++ p.2.rest := by
  unfold readObject
  refine (Yields.mapError (Json.exists_items_of_foldMembers Trouble.ofReader (fun _ => Spells)
    (fun _ _ => True) ?_ (Json.stepsFrom c) true [] trivial c (Nat.lt_succ_self _))).bind ?_
  · intro s ms key c₁ _
    unfold readMember
    split_ifs
    · exact .error _
    · refine (Json.exists_colon c₁).mapError.bind fun c₂ ⟨b, hb, hcolon⟩ => ?_
      refine (exists_tagText c₂).bind fun ⟨tag, c₃⟩ ⟨b', name, cs, hb', hcs, hends⟩ => .ok ?_
      exact ⟨.string name, b, b', cs, hb, hb', .string hcs, trivial, hends ▸ hcolon⟩
    · refine (Json.exists_colon c₁).mapError.bind fun c₂ ⟨b, hb, hcolon⟩ => ?_
      refine (Json.isSpelled_readValue depthInRule c₂).mapError.bind ?_
      rintro ⟨v, c₃⟩ ⟨b', cs, hb', hcs, hends⟩
      exact .ok ⟨v, b, b', cs, hb, hb', hcs, trivial, hends ▸ hcolon⟩
  · rintro ⟨s, c₁⟩ ⟨ms, text, rest, htext, -, hclose, hends⟩
    simp only at hends hclose ⊢
    split
    · refine .ok ⟨ms, text ++ ['\x7d'], .object htext, ?_⟩
      rw [hends, hclose, Cursor.rest_advance hclose]
      simp
    · exact .error _

theorem exists_arrayText (c : Cursor) :
    Yields (readArray c) fun p => ∃ vs cs, Spells (.array vs) ('[' :: cs) ∧
      c.rest = cs ++ p.2.rest := by
  unfold readArray
  refine (Json.exists_gap_of_nextElement true c).mapError.bind fun ⟨more, c₁⟩ hgap => ?_
  cases more with
  | false => exact .error _
  | true =>
      obtain ⟨gap, hgap, hc⟩ := hgap
      refine (exists_tagText c₁).bind fun ⟨tag, c₂⟩ ⟨b, name, cs, hb, hcs, h₁⟩ => ?_
      refine (Json.exists_items_of_foldElements _ Spells (fun _ _ => True)
        (fun v cs h => h.opens.ne_nil) ?_ (Json.stepsFrom c₂) false [] trivial c₂
        (Nat.lt_succ_self _)).bind ?_
      · intro vs _ c₃ _
        refine (Json.isSpelled_readValue depthInRule c₃).mapError.bind ?_
        rintro ⟨v, c₄⟩ ⟨b', cs, hb', hcs, hends⟩
        exact .ok ⟨v, b', cs, hb', hcs, trivial, hends⟩
      · rintro ⟨vs', c₃⟩ ⟨vs, text, rest, htext, -, hclose, h₂⟩
        refine .ok ⟨.string name :: vs, _ ++ [']'],
          .array (.more (hgap.append_blank hb) (.string hcs) htext), ?_⟩
        simp only at hc h₁ h₂ hclose ⊢
        rw [hc, h₁, h₂, hclose, Cursor.rest_advance hclose]
        simp

theorem exists_ruleText (c : Cursor) :
    Yields (readRule c) fun p => ∃ b v cs, Blank b ∧ Spells v cs ∧
      c.rest = b ++ (cs ++ p.2.rest) := by
  obtain ⟨b, hb, hblank⟩ := c.exists_blank
  have hdecoded (decoded : Except Mismatch Expression) (c₁ : Cursor) :
      Yields (match decoded with
        | .ok e => .ok (e, c₁)
        | .error m => .error (Trouble.pending m c₁)) fun p => p.2 = c₁ := by
    cases decoded with
    | error m => exact .error _
    | ok e => exact .ok rfl
  unfold readRule
  simp only
  split
  · rename_i ds hrest
    refine (exists_objectText c.skipBlank.advance).bind fun ⟨p, c₁⟩ ⟨ms, cs, hcs, hends⟩ => ?_
    refine (hdecoded (Expression.ofMembers p.1 none p.2) c₁).mono fun p hp => ?_
    refine ⟨b, _, _, hb, hcs, ?_⟩
    rw [hblank, hrest, ← Cursor.rest_advance hrest, hends, hp, List.cons_append]
  · rename_i ds hrest
    refine (exists_arrayText c.skipBlank.advance).bind fun ⟨p, c₁⟩ ⟨vs, cs, hcs, hends⟩ => ?_
    refine (hdecoded (Expression.ofFields p.1 p.2) c₁).mono fun p hp => ?_
    refine ⟨b, _, _, hb, hcs, ?_⟩
    rw [hblank, hrest, ← Cursor.rest_advance hrest, hends, hp, List.cons_append]
  · exact (readForeign_yields (P := fun _ => False) .expression _).bind fun _ h => h.elim

end GrammarFile
end GrammarRecords
