/-
Grammars from the texts of grammar files.

A file is an object whose sections stand in any order, or an array.  One section
is the name and one is the table of rules; the others are passed over.  A text of
this form is loaded exactly if each of its rules decodes by itself (`rule?`), and
the grammar is the table of the decoded rules, lowered: `toOption_ofFileText`.
No text of another form is loaded: `exists_fileText`.  With these two a statement
about loading is one about the values that a file spells.
-/
import GrammarRecords.Proofs.Grammar.RuleText
import GrammarRecords.Proofs.Json.Printing
import GrammarRecords.Proofs.Json.Spelling.Skipping

namespace GrammarRecords

open Json (Cursor Position Value Blank Ends Finds Reaches Spells within)

namespace GrammarFile

/-! ## Texts -/

inductive Section where
  | name (s : String)
  | rules (rules : List (String × Value))
  | other

namespace Section

def name? : Section → Option String
  | .name s => some s
  | _ => none

def rules? : Section → Option (List (String × Value))
  | .rules rs => some rs
  | _ => none

end Section

inductive SectionText : String → Section → List Char → Prop
  | name {s : String} {cs : List Char} (h : Json.StringText s cs) : SectionText "name" (.name s) cs
  | rules {rules : List (String × Value)} {cs : List Char} (h : Spells (.object rules) cs) :
      SectionText "rules" (.rules rules) cs
  | other {key : String} {cs : List Char} (hname : key ≠ "name") (hrules : key ≠ "rules")
      (h : Json.Loose () cs) : SectionText key .other cs

/-- A file with this name and these rules, in the order of the text and with repetitions. -/
inductive FileText (name : String) (rules : List (String × Value)) : List Char → Prop
  | object {sections : List (String × Section)} {b body b' : List Char} (hb : Blank b)
      (hb' : Blank b') (h : Json.Items (Json.MemberText SectionText) true sections body)
      (hname : sections.filterMap (·.2.name?) = [name])
      (hrules : sections.filterMap (·.2.rules?) = [rules]) :
      FileText name rules (b ++ '\x7b' :: (body ++ '\x7d' :: b'))
  | array {b b₁ b₂ b₃ b' nameText rulesText : List Char} (hb : Blank b) (hb₁ : Blank b₁)
      (hgap : Json.Gap false b₂) (hb₃ : Blank b₃) (hb' : Blank b')
      (hname : Json.StringText name nameText) (hrules : Spells (.object rules) rulesText) :
      FileText name rules
        (b ++ '[' :: (b₁ ++ (nameText ++ (b₂ ++ (rulesText ++ (b₃ ++ ']' :: b'))))))

/-! ## Rules -/

/-- Repeated rules replace the body and keep the place; one that does not decode spoils all. -/
def table? (rules : List (String × Value)) : Option (Table String Expression) :=
  rules.foldlM (fun t rule => (rule? rule.2).map (t.insert rule.1)) .empty

theorem table?_eq_ofList {rules : List (String × Expression)} {values : List (String × Value)}
    (h : List.Forall₂ (fun r m => r.1 = m.1 ∧ rule? m.2 = some r.2) rules values) :
    table? values = some (.ofList rules) := by
  unfold table? Table.ofList
  generalize Table.empty = t
  induction h generalizing t with
  | nil => rfl
  | cons hrule hrules ih =>
      rw [List.foldlM_cons, List.foldl_cons, hrule.1, hrule.2]
      exact ih _

theorem finds_readRules {rules : List (String × Value)} {cs b : List Char}
    (h : Spells (.object rules) cs) (hb : Blank b) (rest : List Char) (p : Position) :
    Finds (readRules ⟨b ++ (cs ++ rest), p⟩) (table? rules) rest := by
  cases h with
  | @object _ body h =>
      have hbody : '\x7b' :: (body ++ ['\x7d']) ++ rest = '\x7b' :: (body ++ '\x7d' :: rest) := by
        simp
      obtain ⟨q, hq⟩ := Cursor.skipBlank_append hb (show Cursor.isBlank '\x7b' = false by decide)
        (body ++ '\x7d' :: rest) p
      have hsteps :
          body.length < (Json.stepsFrom ⟨'\x7b' :: (body ++ '\x7d' :: rest), q⟩).length := by
        simp only [Json.stepsFrom, List.length_cons, List.length_append]
        omega
      unfold readRules
      rw [hbody, hq]
      simp only
      have hid : (table? rules).map id = table? rules := by rw [Option.map_id, id]
      rw [← hid]
      refine (Finds.mapError (?_ : Finds _ (table? rules) ('\x7d' :: rest)) Trouble.leaveObject).map
        fun t q => ⟨q.after '\x7d', rfl⟩
      refine Json.finds_foldMembers _ h ?_ hsteps Table.empty rest _
      intro t name v b b' cs rest p hb hb' hv _
      refine ((Json.reaches_readColon hb _ p).mapError Trouble.ofReader).finds fun q => ?_
      exact (finds_readRule hv hb' rest q).map fun e q => ⟨q, rfl⟩

/-- One step of the pass over the sections, for a section that is given as its content. -/
def metSection (s : Parts) (m : String × Section) : Option Parts :=
  match m.2 with
  | .name name => if s.name.isSome then none else some ⟨some name, s.rules⟩
  | .rules rules =>
      if s.rules.isSome then none else (table? rules).map fun t => ⟨s.name, some t⟩
  | .other => some s

theorem finds_readPart (s : Parts) {key : String} {content : Section} {b b' cs rest : List Char}
    (hb : Blank b) (hb' : Blank b') (h : SectionText key content cs) (hrest : Ends rest)
    (p : Position) :
    Finds (readPart s key ⟨b ++ ':' :: (b' ++ (cs ++ rest)), p⟩) (metSection s (key, content))
      rest := by
  have hcolon := (Json.reaches_readColon hb (b' ++ (cs ++ rest)) p).mapError Trouble.ofReader
  unfold readPart metSection
  cases h with
  | name h =>
      simp only [if_true]
      split_ifs
      · exact Finds.error _ _
      · refine hcolon.finds fun q => ?_
        exact (finds_readText (.string h) hb' .text rest q).then fun q => Finds.ok _ _ q
  | rules h =>
      simp only [show ("rules" = "name") = False from by decide, if_false, if_true]
      split_ifs
      · exact Finds.error _ _
      · refine hcolon.finds fun q => ?_
        exact (finds_readRules h hb' rest q).map fun t q => ⟨q, rfl⟩
  | other hname hrules h =>
      simp only [if_neg hname, if_neg hrules]
      refine hcolon.finds fun q => ?_
      exact ((Json.reaches_skipValue hb' h hrest q).mapError Trouble.ofReader).finds fun q =>
        Finds.ok _ _ q

section Fold

theorem eq_of_toList_append {α : Type} {found : Option α} {a b : α} {as : List α}
    (h : found.toList ++ a :: as = [b]) : found = none ∧ a = b ∧ as = [] := by
  cases found with
  | none => exact ⟨rfl, List.cons.inj h⟩
  | some c => exact absurd (List.cons.inj h).2 (List.cons_ne_nil a as)

variable {sections : List (String × Section)} {name : String} {s : Parts}

theorem foldlM_metSection_of_some {t : Table String Expression} (ht : s.rules = some t)
    (hname : s.name.toList ++ sections.filterMap (·.2.name?) = [name])
    (hrules : sections.filterMap (·.2.rules?) = []) :
    sections.foldlM metSection s = some ⟨some name, some t⟩ := by
  induction sections generalizing s with
  | nil =>
      obtain ⟨found, rules⟩ := s
      obtain rfl : rules = some t := ht
      rw [List.filterMap_nil, List.append_nil, Option.toList_eq_singleton_iff] at hname
      obtain rfl : found = some name := hname
      rfl
  | cons m sections ih =>
      obtain ⟨key, content⟩ := m
      rw [List.foldlM_cons]
      cases content with
      | name n =>
          obtain ⟨hnone, rfl, hnames⟩ := eq_of_toList_append hname
          have hmet : metSection s (key, .name n) = some ⟨some n, s.rules⟩ := by
            simp [metSection, hnone]
          rw [hmet]
          exact ih ht (by rw [hnames]; rfl) hrules
      | rules rs => exact absurd hrules (List.cons_ne_nil _ _)
      | other => exact ih ht hname hrules

theorem foldlM_metSection_of_none {rules : List (String × Value)} (ht : s.rules = none)
    (hname : s.name.toList ++ sections.filterMap (·.2.name?) = [name])
    (hrules : sections.filterMap (·.2.rules?) = [rules]) :
    sections.foldlM metSection s = (table? rules).map fun t => ⟨some name, some t⟩ := by
  induction sections generalizing s with
  | nil => exact absurd hrules.symm (List.cons_ne_nil _ _)
  | cons m sections ih =>
      obtain ⟨key, content⟩ := m
      rw [List.foldlM_cons]
      cases content with
      | name n =>
          obtain ⟨hnone, rfl, hnames⟩ := eq_of_toList_append hname
          have hmet : metSection s (key, .name n) = some ⟨some n, s.rules⟩ := by
            simp [metSection, hnone]
          rw [hmet]
          exact ih ht (by rw [hnames]; rfl) hrules
      | rules rs =>
          obtain ⟨rfl, hothers⟩ := List.cons.inj hrules
          have hmet : metSection s (key, .rules rs) =
              (table? rs).map fun t => ⟨s.name, some t⟩ := by
            simp [metSection, ht]
          rw [hmet]
          cases table? rs with
          | none => rfl
          | some t => exact foldlM_metSection_of_some rfl hname hothers
      | other => exact ih ht hname hrules

end Fold

theorem finds_readFileObject {name : String} {rules : List (String × Value)}
    {sections : List (String × Section)} {body : List Char}
    (h : Json.Items (Json.MemberText SectionText) true sections body)
    (hname : sections.filterMap (·.2.name?) = [name])
    (hrules : sections.filterMap (·.2.rules?) = [rules]) (rest : List Char) (p : Position) :
    Finds (readFileObject ⟨body ++ '\x7d' :: rest, p⟩) ((table? rules).map fun t => (name, t))
      rest := by
  have hsteps : body.length < (Json.stepsFrom ⟨body ++ '\x7d' :: rest, p⟩).length := by
    simp only [Json.stepsFrom, List.length_cons, List.length_append]
    omega
  have hfold := Json.finds_foldMembers Trouble.ofReader h
    (fun s key content b b' cs rest p hb hb' hcs hrest => finds_readPart s hb hb' hcs hrest p)
    hsteps ⟨none, none⟩ rest p
  rw [foldlM_metSection_of_none (s := ⟨none, none⟩) rfl hname hrules] at hfold
  have hleft := hfold.mapError Trouble.leaveObject
  unfold readFileObject
  cases ht : table? rules with
  | none =>
      rw [ht] at hleft
      exact hleft.bind (g := fun _ => none) fun t _ h => absurd h.symm (Option.some_ne_none t)
  | some t =>
      rw [ht] at hleft
      exact hleft.then fun q => Finds.ok _ _ _

theorem reaches_closeArray {b : List Char} (hb : Blank b) (rest : List Char) (p : Position) :
    Reaches (closeArray ⟨b ++ ']' :: rest, p⟩) rest := by
  obtain ⟨q, hq⟩ := Cursor.skipBlank_append hb (show Cursor.isBlank ']' = false by decide) rest p
  unfold closeArray
  rw [hq]
  exact Reaches.ok _ _

theorem finds_readFileArray {name : String} {rules : List (String × Value)}
    {b₁ b₂ b₃ nameText rulesText : List Char} (hb₁ : Blank b₁) (hgap : Json.Gap false b₂)
    (hb₃ : Blank b₃) (hname : Json.StringText name nameText)
    (hrules : Spells (.object rules) rulesText) (rest : List Char) (p : Position) :
    Finds (readFileArray
        ⟨b₁ ++ (nameText ++ (b₂ ++ (rulesText ++ (b₃ ++ ']' :: rest)))), p⟩)
      ((table? rules).map fun t => (name, t)) rest := by
  have hspells : Spells (.string name) nameText := .string hname
  have hfirst := Json.finds_nextElement (.first hb₁)
    (hspells.opens.append (b₂ ++ (rulesText ++ (b₃ ++ ']' :: rest)))) p
  refine (hfirst.mapError Trouble.ofReader).then fun q => ?_
  simp only [Bool.not_true, Bool.false_eq_true, if_false]
  refine (finds_readText hspells Blank.nil .text _ q).then fun q => ?_
  have hsecond := Json.finds_nextElement hgap (hrules.opens.append (b₃ ++ ']' :: rest)) q
  refine (hsecond.mapError Trouble.ofReader).then fun q => ?_
  simp only [Bool.not_true, Bool.false_eq_true, if_false]
  rw [Option.map_eq_bind]
  refine Finds.bind (finds_readRules hrules Blank.nil _ q) fun t q _ => ?_
  refine ((reaches_closeArray hb₃ rest q).mapError Trouble.ofReader).finds fun q => ?_
  exact Finds.ok _ _ q

/-! ## Files -/

theorem readEnd_blank {b : List Char} (hb : Blank b) (p : Position) :
    Json.readEnd ⟨b, p⟩ = .ok () := by
  obtain ⟨q, hq⟩ := Cursor.skipBlank_blank hb p
  unfold Json.readEnd
  rw [hq]
  rfl

theorem toOption_ended {r : Except Trouble (Contents × Cursor)} {found : Option Contents}
    {b' : List Char} (h : Finds r found b') (hb' : Blank b') :
    (r >>= fun p => do
      reading (Json.readEnd p.2)
      return p.1).toOption = found := by
  cases found with
  | none =>
      obtain ⟨e, rfl⟩ := h
      rfl
  | some contents =>
      obtain ⟨q, rfl⟩ := h
      have hread : reading (Json.readEnd ⟨b', q⟩) = .ok () := by
        rw [readEnd_blank hb' q]
        rfl
      show (reading (Json.readEnd ⟨b', q⟩) >>= fun _ => .ok contents).toOption = some contents
      rw [hread]
      rfl

theorem toOption_read {name : String} {rules : List (String × Value)} {cs : List Char}
    (h : FileText name rules cs) (p : Position) :
    (read ⟨cs, p⟩).toOption = (table? rules).map fun t => (name, t) := by
  cases h with
  | @object sections b body b' hb hb' h hname hrules =>
      obtain ⟨q, hq⟩ := Cursor.skipBlank_append hb (show Cursor.isBlank '\x7b' = false by decide)
        (body ++ '\x7d' :: b') p
      unfold read
      rw [hq]
      exact toOption_ended (finds_readFileObject h hname hrules b' _) hb'
  | @array b b₁ b₂ b₃ b' nameText rulesText hb hb₁ hgap hb₃ hb' hname hrules =>
      obtain ⟨q, hq⟩ := Cursor.skipBlank_append hb (show Cursor.isBlank '[' = false by decide)
        (b₁ ++ (nameText ++ (b₂ ++ (rulesText ++ (b₃ ++ ']' :: b'))))) p
      unfold read
      rw [hq]
      exact toOption_ended (finds_readFileArray hb₁ hgap hb₃ hname hrules b' _) hb'

end GrammarFile

namespace Grammar

open GrammarFile (FileText table?)

theorem toOption_ofFileText {text name : String} {rules : List (String × Value)}
    (h : FileText name rules text.toList) :
    (ofFileText text).toOption = (table? rules).map fun t => ofContents (name, t) := by
  have hread : (GrammarFile.read (.ofText text)).toOption = (table? rules).map fun t => (name, t) :=
    GrammarFile.toOption_read h .start
  have hmap : ((table? rules).map fun t => ofContents (name, t)) =
      ((table? rules).map fun t => (name, t)).map ofContents := by
    rw [Option.map_map]
    rfl
  rw [hmap, ← hread, ofFileText]
  cases GrammarFile.read (.ofText text) with
  | error t => rfl
  | ok contents => rfl

theorem ofFileText_eq_ok_iff {text name : String} {rules : List (String × Value)} {g : Grammar}
    (h : FileText name rules text.toList) :
    ofFileText text = .ok g ↔ ∃ t, table? rules = some t ∧ ofContents (name, t) = g := by
  have hload := toOption_ofFileText h
  rw [← Option.map_eq_some_iff, ← hload]
  cases ofFileText text with
  | error e => exact ⟨fun h => (nomatch h), fun h => nomatch h⟩
  | ok g' => exact ⟨fun h => congrArg Except.toOption h, fun h => congrArg _ (Option.some.inj h)⟩

end Grammar

namespace GrammarFile

/-! ## Whatever is loaded -/

theorem exists_rulesText (c : Cursor) :
    Yields (readRules c) fun p => ∃ b rules cs, Blank b ∧ Spells (.object rules) cs ∧
      c.rest = b ++ (cs ++ p.2.rest) := by
  obtain ⟨b, hb, hblank⟩ := c.exists_blank
  unfold readRules
  simp only
  split
  · rename_i ds hrest
    have hsteps : c.skipBlank.advance.rest.length < (Json.stepsFrom c.skipBlank).length := by
      rw [Cursor.rest_advance hrest, Json.stepsFrom, hrest, List.length_cons, List.length_cons]
      omega
    refine (Yields.mapError (Json.exists_items_of_foldMembers _ (fun _ => Spells) (fun _ _ => True)
      ?_ _ true [] trivial _ hsteps)).bind ?_
    · intro t ms name c₁ _
      refine (Json.exists_colon c₁).mapError.bind ?_
      rintro c₂ ⟨b₁, hb₁, hcolon⟩
      refine (exists_ruleText c₂).bind ?_
      rintro ⟨e, c₃⟩ ⟨b₂, v, cs, hb₂, hcs, hends⟩
      exact .ok ⟨v, b₁, b₂, cs, hb₁, hb₂, hcs, trivial, hends ▸ hcolon⟩
    · rintro ⟨t, c₁⟩ ⟨rules, text, rest, htext, -, hclose, hends⟩
      refine .ok ⟨b, rules, _, hb, .object htext, ?_⟩
      simp only at hends hclose ⊢
      rw [hblank, hrest, ← Cursor.rest_advance hrest, hends, hclose, Cursor.rest_advance hclose]
      simp
  · exact readForeign_yields .table c.skipBlank

/-- The parts of a file that were met, against the sections so far. -/
structure Met (s : Parts) (sections : List (String × Section)) : Prop where
  name : sections.filterMap (·.2.name?) = s.name.toList
  rules : (sections.filterMap (·.2.rules?)).length = s.rules.toList.length

theorem exists_sectionText {s : Parts} {sections : List (String × Section)} (h : Met s sections)
    (key : String) (c : Cursor) :
    Yields (readPart s key c) fun p => ∃ content b b' cs, Blank b ∧ Blank b' ∧
      SectionText key content cs ∧ Met p.1 (sections ++ [(key, content)]) ∧
        c.rest = b ++ ':' :: (b' ++ (cs ++ p.2.rest)) := by
  unfold readPart
  split_ifs with hname hsome hrules hsome
  · exact .error _
  · have hnone : s.name = none := by simpa using hsome
    refine (Json.exists_colon c).mapError.bind fun c₁ ⟨b, hb, hcolon⟩ => ?_
    refine (exists_text .text c₁).bind fun ⟨name, c₂⟩ ⟨b', cs, hb', hcs, hends⟩ => .ok ?_
    refine ⟨.name name, b, b', cs, hb, hb', hname ▸ .name hcs, ⟨?_, ?_⟩, hends ▸ hcolon⟩
    · rw [List.filterMap_append, h.name, hnone]
      rfl
    · rw [List.filterMap_append, List.length_append, h.rules]
      rfl
  · exact .error _
  · have hnone : s.rules = none := by simpa using hsome
    refine (Json.exists_colon c).mapError.bind fun c₁ ⟨b, hb, hcolon⟩ => ?_
    refine (exists_rulesText c₁).bind fun ⟨t, c₂⟩ ⟨b', rules, cs, hb', hcs, hends⟩ => .ok ?_
    refine ⟨.rules rules, b, b', cs, hb, hb', hrules ▸ .rules hcs, ⟨?_, ?_⟩, hends ▸ hcolon⟩
    · rw [List.filterMap_append, h.name]
      exact List.append_nil _
    · rw [List.filterMap_append, List.length_append, h.rules, hnone]
      rfl
  · refine (Json.exists_colon c).mapError.bind fun c₁ ⟨b, hb, hcolon⟩ => ?_
    refine (Json.exists_loose c₁).mapError.bind fun c₂ ⟨b', cs, hb', hcs, hends⟩ => .ok ?_
    refine ⟨.other, b, b', cs, hb, hb', .other hname hrules hcs, ⟨?_, ?_⟩, hends ▸ hcolon⟩
    · rw [List.filterMap_append, h.name]
      exact List.append_nil _
    · rw [List.filterMap_append, List.length_append, h.rules]
      rfl

theorem exists_fileObjectText (c : Cursor) :
    Yields (readFileObject c) fun p => ∃ name rules sections body,
      Json.Items (Json.MemberText SectionText) true sections body ∧
        sections.filterMap (·.2.name?) = [name] ∧ sections.filterMap (·.2.rules?) = [rules] ∧
          c.rest = body ++ '\x7d' :: p.2.rest := by
  unfold readFileObject
  refine (Yields.mapError (Json.exists_items_of_foldMembers _ SectionText Met
    (fun s sections key c h => exists_sectionText h key c) (Json.stepsFrom c) true []
    ⟨rfl, rfl⟩ c (Nat.lt_succ_self _))).bind ?_
  rintro ⟨⟨name?, rules?⟩, c₁⟩ ⟨sections, body, rest, hbody, hmet, hclose, hends⟩
  cases name? with
  | none => exact .error _
  | some name =>
      cases rules? with
      | none => exact .error _
      | some t =>
          obtain ⟨rules, hrules⟩ := List.length_eq_one_iff.mp hmet.rules
          refine .ok ⟨name, rules, sections, body, hbody, hmet.name, hrules, ?_⟩
          simp only at hends hclose ⊢
          rw [hends, hclose, Cursor.rest_advance hclose]

theorem exists_closeArray (c : Cursor) :
    Yields (closeArray c) fun c' => ∃ b, Blank b ∧ c.rest = b ++ ']' :: c'.rest := by
  obtain ⟨b, hb, hblank⟩ := c.exists_blank
  unfold closeArray
  simp only
  split
  · exact .error _
  · rename_i ds hclose
    exact .ok ⟨b, hb, by rw [hblank, hclose, Cursor.rest_advance hclose]⟩
  · split <;> exact .error _
  · exact .error _

theorem exists_fileArrayText (c : Cursor) :
    Yields (readFileArray c) fun p => ∃ name rules b₁ nameText b₂ rulesText b₃,
      Blank b₁ ∧ Json.StringText name nameText ∧ Json.Gap false b₂ ∧
        Spells (.object rules) rulesText ∧ Blank b₃ ∧
          c.rest = b₁ ++ (nameText ++ (b₂ ++ (rulesText ++ (b₃ ++ ']' :: p.2.rest)))) := by
  unfold readFileArray
  refine (Json.exists_gap_of_nextElement true c).mapError.bind fun ⟨more, c₁⟩ hfirst => ?_
  cases more with
  | false => exact .error _
  | true =>
      obtain ⟨gap, hgap, h₁⟩ := hfirst
      refine (exists_text .text c₁).bind fun ⟨name, c₂⟩ ⟨b, nameText, hb, hname, h₂⟩ => ?_
      refine (Json.exists_gap_of_nextElement false c₂).mapError.bind fun ⟨more, c₃⟩ hsecond => ?_
      cases more with
      | false => exact .error _
      | true =>
          obtain ⟨gap', hgap', h₃⟩ := hsecond
          refine (exists_rulesText c₃).bind fun ⟨t, c₄⟩ ⟨b', rules, cs, hb', hrules, h₄⟩ => ?_
          refine (exists_closeArray c₄).mapError.bind fun c₅ ⟨b₃, hb₃, h₅⟩ => .ok ?_
          cases hgap with
          | first hgap =>
              refine ⟨name, rules, _, nameText, _, cs, b₃, hgap.append hb, hname,
                hgap'.append_blank hb', hrules, hb₃, ?_⟩
              simp only at h₁ h₂ h₃ h₄ h₅ ⊢
              rw [h₁, h₂, h₃, h₄, h₅]
              simp only [List.append_assoc]

theorem blank_of_readEnd (c : Cursor) : Yields (Json.readEnd c) fun _ => Blank c.rest := by
  obtain ⟨b, hb, hblank⟩ := c.exists_blank
  unfold Json.readEnd
  simp only
  split_ifs with hempty
  · rw [List.isEmpty_iff] at hempty
    rw [hblank, hempty, List.append_nil]
    exact .ok hb
  · exact .error _

theorem exists_fileText_of_read (c : Cursor) :
    Yields (read c) fun _ => ∃ name rules, FileText name rules c.rest := by
  obtain ⟨b, hb, hblank⟩ := c.exists_blank
  unfold read
  simp only
  split
  · rename_i ds hrest
    refine (exists_fileObjectText c.skipBlank.advance).bind ?_
    rintro ⟨contents, c₁⟩ ⟨name, rules, sections, body, hbody, hname, hrules, hends⟩
    refine (blank_of_readEnd c₁).mapError.bind fun _ hb' => .ok ⟨name, rules, ?_⟩
    rw [hblank, hrest, ← Cursor.rest_advance hrest, hends]
    exact .object hb hb' hbody hname hrules
  · rename_i ds hrest
    refine (exists_fileArrayText c.skipBlank.advance).bind ?_
    rintro ⟨contents, c₁⟩ ⟨name, rules, b₁, nameText, b₂, rulesText, b₃, hb₁, hname, hgap, hrules,
      hb₃, hends⟩
    refine (blank_of_readEnd c₁).mapError.bind fun _ hb' => .ok ⟨name, rules, ?_⟩
    rw [hblank, hrest, ← Cursor.rest_advance hrest, hends]
    exact .array hb hb₁ hgap hb₃ hb' hname hrules
  · exact (readForeign_yields (P := fun _ => False) .grammar _).bind fun _ h => h.elim

/-! ## Printed files -/

def Section.value : Section → Value
  | .name s => .string s
  | .rules rs => .object rs
  | .other => .null

def printed (name : String) (rules : List (String × Value)) : String :=
  Value.pretty (.object [("name", .string name), ("rules", .object rules)])

theorem fileText_printed (name : String) {rules : List (String × Value)}
    (h : ∀ rule ∈ rules, rule.2.NumberFree) : FileText name rules (printed name rules).toList := by
  let sections : List (String × Section) := [("name", .name name), ("rules", .rules rules)]
  have hsections : ∀ m ∈ sections,
      Json.MemberText SectionText m (Value.memberChars 1 (m.1, m.2.value)) := by
    have hname : Json.StringText name (Value.prettyAt 1 (.string name)).toList := by
      rw [Value.prettyAt]
      exact Value.stringText_stringText name
    have hrules : Spells (.object rules) (Value.prettyAt 1 (.object rules)).toList :=
      Value.spells_prettyAt (.object h) 1
    refine List.forall_mem_cons.mpr ⟨?_, List.forall_mem_singleton.mpr ?_⟩
    · exact Value.memberText_memberChars (SectionText.name hname)
    · exact Value.memberText_memberChars (SectionText.rules hrules)
  obtain ⟨body, htext, hbody⟩ := Value.items_bracketed hsections '\x7b' '\x7d' 0
  have hmembers : [("name", Value.string name), ("rules", .object rules)] =
      sections.map fun m => (m.1, m.2.value) := rfl
  have hprinted : (printed name rules).toList = '\x7b' :: (body ++ ['\x7d']) := by
    unfold printed Value.pretty
    rw [Value.toList_prettyAt_object, hmembers, List.map_map]
    exact htext
  rw [hprinted]
  exact .object Blank.nil Blank.nil hbody rfl rfl

end GrammarFile

theorem Grammar.exists_fileText {text : String} {g : Grammar} (h : ofFileText text = .ok g) :
    ∃ name rules, GrammarFile.FileText name rules text.toList := by
  unfold ofFileText at h
  split at h
  · rename_i contents hread
    exact GrammarFile.exists_fileText_of_read _ _ hread
  · exact nomatch h

end GrammarRecords
