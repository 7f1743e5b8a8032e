/-
A command line as groups of words.

A group gives a setting its value or turns a switch on.  `Group.Spelled` lists
how it can be written: with the long name or the letter, the value as a word of
its own or attached, behind an equals sign or not; the path is its value alone.
A value that is a word of its own stays pending behind its group, so a group is
told by what the scan holds once it is resolved (`Scan.Holds`).  Whatever was
pending before and however a group is spelled, its words change the choices as
the group says and nothing else (`scan_group`); hence a line is read group by
group (`scan_line`).
-/
import GrammarRecords.Proofs.CommandLine.Scanning
import Mathlib.Data.List.TakeWhile

namespace GrammarRecords
namespace CommandLine

/-! ## Groups -/

inductive Group where
  | give (setting : Setting) (value : String)
  | turn (switch : Switch)
deriving DecidableEq, Repr

/-- A value is not empty, and neither a dash nor an equals sign is in front. -/
def IsValue (value : String) : Prop :=
  value ≠ "" ∧ value.toList.head? ≠ some '-' ∧ value.toList.head? ≠ some '='

instance (value : String) : Decidable (IsValue value) :=
  inferInstanceAs (Decidable (_ ∧ _ ∧ _))

/--
The values of a setting.  A path is never attached to anything, so it may have an
equals sign in front; a dash alone is one as well.
-/
def Setting.Takes : Setting → String → Prop
  | .grammar, path => path ≠ "" ∧ (path.toList.head? = some '-' → path = "-")
  | .dialect, value => value ∈ ["generic", "scala", "rust"]
  | .format, value => value ∈ ["text", "json"]
  | .indirection, value => value ∈ ["box", "rc", "arc"]
  | .color, value => value ∈ ["auto", "always", "never"]
  | .output, value | .reserved, value | .derive, value => IsValue value

instance : (setting : Setting) → (value : String) → Decidable (setting.Takes value)
  | .grammar, _ => inferInstanceAs (Decidable (_ ∧ _))
  | .dialect, _ | .format, _ | .indirection, _ | .color, _ => inferInstanceAs (Decidable (_ ∈ _))
  | .output, value | .reserved, value | .derive, value =>
      inferInstanceAs (Decidable (IsValue value))

namespace Group

/-- Switches for verbosity and help are left out. -/
def Sound : Group → Prop
  | give setting value => setting.Takes value
  | turn switch => switch = .noDerive ∨ switch = .noHeader

instance : (group : Group) → Decidable group.Sound
  | give setting value => inferInstanceAs (Decidable (setting.Takes value))
  | turn _ => inferInstanceAs (Decidable (_ ∨ _))

/-- The words of one group. -/
inductive Spelled : Group → List String → Prop
  | path (path : String) : Spelled (give .grammar path) [path]
  | long {setting : Setting} {name : String} (value : String) :
      (Item.setting setting).longName? = some name →
      Spelled (give setting value) ["--" ++ name, value]
  | longEquals {setting : Setting} {name : String} (value : String) :
      (Item.setting setting).longName? = some name →
      Spelled (give setting value) ["--" ++ name ++ "=" ++ value]
  | short {setting : Setting} {letter : Char} (value : String) :
      (Item.setting setting).letter? = some letter →
      Spelled (give setting value) ["-" ++ String.singleton letter, value]
  | shortAttached {setting : Setting} {letter : Char} (value : String) :
      (Item.setting setting).letter? = some letter →
      Spelled (give setting value) ["-" ++ String.singleton letter ++ value]
  | shortEquals {setting : Setting} {letter : Char} (value : String) :
      (Item.setting setting).letter? = some letter →
      Spelled (give setting value) ["-" ++ String.singleton letter ++ "=" ++ value]
  | switch {switch : Switch} {name : String} :
      (Item.switch switch).longName? = some name → Spelled (turn switch) ["--" ++ name]

end Group

/-- Groups one after the other, each spelled in one of its ways. -/
inductive Line : List Group → List String → Prop
  | nil : Line [] []
  | cons {group : Group} {groups : List Group} {words rest : List String} :
      group.Spelled words → Line groups rest → Line (group :: groups) (words ++ rest)

def Choices.apply (c : Choices) : Group → Except UsageError Choices
  | .give setting value => c.set setting value
  | .turn switch => c.turnOn switch

/-! ## Words of groups -/

theorem classify_plain {word : String} (hne : word ≠ "")
    (hdash : word.toList.head? = some '-' → word = "-") : Word.classify word = .plain := by
  cases hchars : word.toList with
  | nil => exact absurd (String.toList_eq_nil_iff.mp hchars) hne
  | cons c cs =>
      by_cases hc : c = '-'
      · rw [hdash (by rw [hchars, hc]; rfl)]
        decide
      · unfold Word.classify
        rw [hchars]
        split
        · rename_i heq
          exact absurd (List.cons.inj heq).1 hc
        · rename_i heq
          exact absurd (List.cons.inj heq).1 hc
        · rename_i heq
          exact absurd (List.cons.inj heq).1 hc
        · rfl

theorem IsValue.classify {value : String} (h : IsValue value) :
    Word.classify value = .plain :=
  classify_plain h.1 fun hdash => absurd hdash h.2.1

theorem Setting.Takes.isValue {setting : Setting} {value : String} (h : setting.Takes value)
    (hne : setting ≠ .grammar) : IsValue value := by
  have hwords : ∀ words : List String, (∀ word ∈ words, IsValue word) → value ∈ words →
      IsValue value := fun words hwords hmem => hwords value hmem
  cases setting with
  | grammar => exact absurd rfl hne
  | dialect => exact hwords _ (by decide) h
  | format => exact hwords _ (by decide) h
  | indirection => exact hwords _ (by decide) h
  | color => exact hwords _ (by decide) h
  | output => exact h
  | reserved => exact h
  | derive => exact h

theorem Setting.Takes.classify {setting : Setting} {value : String} (h : setting.Takes value) :
    Word.classify value = .plain := by
  by_cases hgrammar : setting = .grammar
  · subst hgrammar
    exact classify_plain h.1 h.2
  · exact (h.isValue hgrammar).classify

theorem Item.longName?_word {item : Item} {name : String} (h : item.longName? = some name) :
    name.toList ≠ [] ∧ '=' ∉ name.toList := by
  cases item with
  | setting s => cases s <;> cases h <;> decide
  | switch s => cases s <;> cases h <;> decide

theorem Item.longName?_chars {item : Item} {name : String} (h : item.longName? = some name) :
    ∃ c cs, name.toList = c :: cs ∧ ∀ x ∈ c :: cs, (x != '=') = true := by
  obtain ⟨hne, hequals⟩ := Item.longName?_word h
  obtain ⟨c, cs, hname⟩ := List.exists_cons_of_ne_nil hne
  refine ⟨c, cs, hname, fun x hx => bne_iff_ne.mpr ?_⟩
  rintro rfl
  rw [← hname] at hx
  exact hequals hx

theorem Item.letter?_ne_dash {item : Item} {letter : Char} (h : item.letter? = some letter) :
    letter ≠ '-' := by
  cases item with
  | setting s => cases s <;> cases h <;> decide
  | switch s => cases s <;> cases h <;> decide

theorem findLong?_records {item : Item} {name : String} (h : item.longName? = some name) :
    findLong? Verb.records.items name = some item := by
  cases item with
  | setting s => cases s <;> cases h <;> decide
  | switch s => cases s <;> cases h <;> decide

theorem findLetter?_records {item : Item} {letter : Char} (h : item.letter? = some letter) :
    findLetter? Verb.records.items letter = some item := by
  cases item with
  | setting s => cases s <;> cases h <;> decide
  | switch s => cases s <;> cases h <;> decide

/-- Two dashes and more name a setting or a switch, up to the first equals sign. -/
theorem classify_dashes {word : String} {c : Char} {cs : List Char}
    (h : word.toList = '-' :: '-' :: c :: cs) :
    Word.classify word =
      match (c :: cs).dropWhile (· != '=') with
      | [] => .long (String.ofList (c :: cs)) none
      | _ :: value =>
          .long (String.ofList ((c :: cs).takeWhile (· != '='))) (some (String.ofList value)) := by
  unfold Word.classify
  rw [h]
  rfl

theorem classify_long {item : Item} {name : String} (h : item.longName? = some name) :
    Word.classify ("--" ++ name) = .long name none := by
  obtain ⟨c, cs, hname, hall⟩ := Item.longName?_chars h
  have htext : ("--" ++ name).toList = '-' :: '-' :: c :: cs := by
    rw [String.toList_append, hname]
    rfl
  rw [classify_dashes htext, List.dropWhile_eq_nil_iff.mpr hall, ← hname, String.ofList_toList]

theorem classify_longEquals {item : Item} {name : String} (h : item.longName? = some name)
    (value : String) :
    Word.classify ("--" ++ name ++ "=" ++ value) = .long name (some value) := by
  obtain ⟨c, cs, hname, hall⟩ := Item.longName?_chars h
  have htext : ("--" ++ name ++ "=" ++ value).toList =
      '-' :: '-' :: c :: (cs ++ '=' :: value.toList) := by
    simp [String.toList_append, hname]
  have hdrop : (c :: (cs ++ '=' :: value.toList)).dropWhile (· != '=') = '=' :: value.toList := by
    rw [← List.cons_append, List.dropWhile_append_of_pos hall]
    rfl
  have htake : (c :: (cs ++ '=' :: value.toList)).takeWhile (· != '=') = name.toList := by
    rw [← List.cons_append, List.takeWhile_append_of_pos hall, hname]
    exact List.append_nil _
  simp only [classify_dashes htext, hdrop, htake, String.ofList_toList]

theorem classify_short {item : Item} {letter : Char} (h : item.letter? = some letter)
    (rest : String) :
    Word.classify ("-" ++ String.singleton letter ++ rest) = .letters (letter :: rest.toList) := by
  have htext : "-" ++ String.singleton letter ++ rest =
      String.ofList ('-' :: letter :: rest.toList) := by
    refine String.toList_inj.mp ?_
    simp [String.toList_append]
  rw [htext, classify_letters (Item.letter?_ne_dash h)]

/-! ## What the scan holds -/

namespace Scan

/-- Once what is pending is resolved these are the choices, and options may still come. -/
def Holds (s : Scan) (c : Choices) : Prop :=
  s.pathsOnly = false ∧ s.resolve = .ok ⟨c, none, false⟩

variable {s : Scan} {c d : Choices}

theorem holds_settled (c : Choices) : Holds ⟨c, none, false⟩ c := ⟨rfl, rfl⟩

theorem holds_pending {setting : Setting} {value : String} (hset : c.set setting value = .ok d) :
    Holds ⟨c, some (setting, some value), false⟩ d := by
  refine ⟨rfl, ?_⟩
  show (c.set setting value >>= _) = _
  rw [hset]
  rfl

theorem holds_start : start.Holds .none := holds_settled .none

theorem Holds.not_awaiting (h : s.Holds c) (setting : Setting) :
    s.pending ≠ some (setting, none) :=
  fun hpending => resolve_of_awaiting hpending _ h.2

theorem Holds.turnOn {switch : Switch} (h : s.Holds c) (hturn : c.turnOn switch = .ok d) :
    s.turnOn switch = .ok ⟨d, none, false⟩ := by
  rw [Scan.turnOn, h.2]
  show (c.turnOn switch >>= _) = _
  rw [hturn]
  rfl

theorem Holds.setAttached {setting : Setting} {value : String} (h : s.Holds c)
    (hset : c.set setting value = .ok d) :
    s.setAttached setting value = .ok ⟨d, none, false⟩ := by
  rw [Scan.setAttached, h.2]
  show (c.set setting value >>= _) = _
  rw [hset]
  rfl

theorem Holds.await (h : s.Holds c) (setting : Setting) :
    s.await setting = .ok ⟨c, some (setting, none), false⟩ := by
  rw [Scan.await, h.2]
  rfl

/-- A path is taken if there was none, pending or not. -/
theorem Holds.path {path : String} (h : s.Holds c) (hset : c.set .grammar path = .ok d) :
    s.path path = .ok ⟨c, some (.grammar, some path), false⟩ := by
  have hnone : s.hasPath = false := by
    obtain ⟨-, -, hsame⟩ := resolve_settled s _ h.2
    rw [← hsame]
    cases hgrammar : c.grammar with
    | none => simp [hasPath, hgrammar]
    | some other =>
        simp only [Choices.set, Choices.once, hgrammar] at hset
        cases hset
  rw [Scan.path, hnone, if_neg Bool.false_ne_true, h.2]
  rfl

/-! ## The words of a group -/

section

variable {items : List Item} {word : String}

theorem Holds.scan_attached {setting : Setting} {value : String} (h : s.Holds c)
    (hword : s.step items word = s.setAttached setting value)
    (hset : c.set setting value = .ok d) :
    ∃ t, [word].foldlM (step items) s = .ok t ∧ t.Holds d := by
  refine ⟨_, ?_, holds_settled d⟩
  rw [foldlM_singleton, hword]
  exact h.setAttached hset

theorem Holds.scan_awaited {setting : Setting} {value : String} (h : s.Holds c)
    (hword : s.step items word = s.await setting) (hvalue : Word.classify value = .plain)
    (hset : c.set setting value = .ok d) :
    ∃ t, [word, value].foldlM (step items) s = .ok t ∧ t.Holds d := by
  refine ⟨_, ?_, holds_pending hset⟩
  rw [List.foldlM_cons, hword, h.await]
  exact (foldlM_singleton items _ value).trans (step_value rfl hvalue rfl)

end

/-- However a value is given, its words set it and nothing else. -/
theorem scan_give {setting : Setting} {value : String} {words : List String}
    (hwords : (Group.give setting value).Spelled words) (htakes : setting.Takes value)
    (h : s.Holds c) (hset : c.set setting value = .ok d) :
    ∃ t, words.foldlM (step Verb.records.items) s = .ok t ∧ t.Holds d := by
  cases hwords with
  | path _ =>
      refine ⟨_, ?_, holds_pending hset⟩
      rw [foldlM_singleton, step_path h.1 htakes.classify h.not_awaiting]
      exact h.path hset
  | long _ hname =>
      exact h.scan_awaited (step_long_await h.1 (classify_long hname) (findLong?_records hname))
        htakes.classify hset
  | longEquals _ hname =>
      exact h.scan_attached (step_long_attached h.1 (classify_longEquals hname value)
        (findLong?_records hname)) hset
  | @short _ letter _ hletter =>
      have hclass : Word.classify ("-" ++ String.singleton letter) = .letters [letter] := by
        have hempty := classify_short hletter ""
        rwa [String.append_empty] at hempty
      refine h.scan_awaited ?_ htakes.classify hset
      rw [step_letters h.1 hclass, cluster_await (findLetter?_records hletter)]
  | @shortAttached _ letter _ hletter =>
      have hne : setting ≠ .grammar := by
        rintro rfl
        cases hletter
      have hvalue : IsValue value := htakes.isValue hne
      obtain ⟨d, cs, hchars⟩ :=
        List.exists_cons_of_ne_nil (mt String.toList_eq_nil_iff.mp hvalue.1)
      have hequals : d ≠ '=' := by
        rintro rfl
        exact hvalue.2.2 (by rw [hchars]; rfl)
      refine h.scan_attached ?_ hset
      rw [step_letters h.1 (classify_short hletter value), hchars,
        cluster_attached (findLetter?_records hletter) s hequals, ← hchars, String.ofList_toList]
  | @shortEquals _ letter _ hletter =>
      have hclass : Word.classify ("-" ++ String.singleton letter ++ "=" ++ value) =
          .letters (letter :: '=' :: value.toList) := by
        have hequals := classify_short hletter ("=" ++ value)
        rwa [← String.append_assoc, String.toList_append] at hequals
      refine h.scan_attached ?_ hset
      rw [step_letters h.1 hclass, cluster_equals (findLetter?_records hletter),
        String.ofList_toList]

theorem scan_group {group : Group} {words : List String} (hwords : group.Spelled words)
    (hsound : group.Sound) (h : s.Holds c) (happly : c.apply group = .ok d) :
    ∃ t, words.foldlM (step Verb.records.items) s = .ok t ∧ t.Holds d := by
  cases group with
  | give setting value => exact scan_give hwords hsound h happly
  | turn switch =>
      cases hwords with
      | switch hname =>
          refine ⟨_, ?_, holds_settled d⟩
          rw [foldlM_singleton,
            step_long_switch h.1 (classify_long hname) (findLong?_records hname)]
          exact h.turnOn happly

/-- A line is read group by group. -/
theorem scan_line {groups : List Group} {words : List String} (hline : Line groups words)
    (hsound : ∀ group ∈ groups, group.Sound) (h : s.Holds c)
    (happly : groups.foldlM Choices.apply c = .ok d) :
    ∃ t, words.foldlM (step Verb.records.items) s = .ok t ∧ t.Holds d := by
  induction hline generalizing s c with
  | nil =>
      have hsame : c = d := Except.ok.inj happly
      exact ⟨s, rfl, hsame ▸ h⟩
  | @cons group groups words rest hwords _ ih =>
      rw [List.foldlM_cons] at happly
      cases hfirst : c.apply group with
      | error e =>
          rw [hfirst] at happly
          cases happly
      | ok e =>
          rw [hfirst] at happly
          obtain ⟨t, hscan, ht⟩ := scan_group hwords (hsound group List.mem_cons_self) h hfirst
          obtain ⟨u, hrest, hu⟩ :=
            ih (fun other hother => hsound other (List.mem_cons_of_mem group hother)) ht happly
          refine ⟨u, ?_, hu⟩
          rw [List.foldlM_append, hscan]
          exact hrest

end Scan

/-- Behind the verb a line of groups gives the choices that its groups make. -/
theorem readChoices_line {groups : List Group} {words : List String} {c : Choices}
    (hline : Line groups words) (hsound : ∀ group ∈ groups, group.Sound)
    (happly : groups.foldlM Choices.apply .none = .ok c) :
    readChoices .records words = .ok c := by
  obtain ⟨t, hscan, ht⟩ := Scan.scan_line hline hsound Scan.holds_start happly
  rw [readChoices, hscan]
  show (t.resolve >>= _) = _
  rw [ht.2]
  rfl

end CommandLine
end GrammarRecords
