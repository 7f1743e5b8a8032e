/-
Options of a records line in any order.

The choices that groups make one after the other are told without their order:
a setting that may be given once has the value that was given, a list setting
has the words of all its values, a switch is on if it was turned on
(`Choices.ofGroups`).  The induction runs from the end of the groups: a group
behind others adds what it says and leaves the rest (`ofGroups_concat_give`,
`ofGroups_concat_turn`).  Nothing in these choices depends on the order except
the lists, and `records_in_any_order` says what follows for a line: in whatever
order and spelling, it is read as one command, if the values of either list come
in the same order.
-/
import GrammarRecords.Proofs.CommandLine.Groups
import Mathlib.Data.List.Induction
import Mathlib.Data.List.Perm.Basic

namespace GrammarRecords
namespace CommandLine

/-! ## What groups say -/

/-- These collect their values. -/
def Setting.isList : Setting → Bool
  | .reserved | .derive => true
  | _ => false

def Group.value? (setting : Setting) : Group → Option String
  | .give given value => if given = setting then some value else none
  | .turn _ => none

/-- All values of a setting in order. -/
def valuesOf (setting : Setting) (groups : List Group) : List String :=
  groups.filterMap (Group.value? setting)

/-- What the first value of a setting says. -/
def single {α : Type} (setting : Setting) (read : String → Option α) (groups : List Group) :
    Option α :=
  (valuesOf setting groups).head?.bind read

/-- The words of all values of a list setting, if it was given at all. -/
def collected (setting : Setting) (groups : List Group) : Option (List String) :=
  if valuesOf setting groups = [] then none else some ((valuesOf setting groups).flatMap wordsOf)

def Choices.ofGroups (groups : List Group) : Choices where
  grammar := single .grammar pathOfWord? groups
  dialect := single .dialect Dialect.ofName? groups
  format := single .format Format.ofName? groups
  indirection := single .indirection indirectionOfName? groups
  color := single .color ColorChoice.ofName? groups
  output := single .output pathOfWord? groups
  reserved := collected .reserved groups
  derive := collected .derive groups
  noDerive := decide (.turn .noDerive ∈ groups)
  noHeader := decide (.turn .noHeader ∈ groups)
  verbose := 0

section

variable {front : List Group} {setting other : Setting} {value : String}

theorem valuesOf_concat (setting : Setting) (front : List Group) (group : Group) :
    valuesOf setting (front ++ [group]) =
      valuesOf setting front ++ (group.value? setting).toList := by
  unfold valuesOf
  rw [List.filterMap_append]
  cases h : group.value? setting <;> simp [h]

@[simp] theorem valuesOf_concat_self :
    valuesOf setting (front ++ [.give setting value]) = valuesOf setting front ++ [value] := by
  simp [valuesOf_concat, Group.value?]

theorem valuesOf_concat_of_ne (h : other ≠ setting) :
    valuesOf setting (front ++ [.give other value]) = valuesOf setting front := by
  simp [valuesOf_concat, Group.value?, h]

@[simp] theorem valuesOf_concat_turn (switch : Switch) :
    valuesOf setting (front ++ [.turn switch]) = valuesOf setting front := by
  simp [valuesOf_concat, Group.value?]

@[simp] theorem single_concat_of_ne {α : Type} (read : String → Option α) (h : other ≠ setting) :
    single setting read (front ++ [.give other value]) = single setting read front := by
  rw [single, valuesOf_concat_of_ne h, single]

@[simp] theorem collected_concat_of_ne (h : other ≠ setting) :
    collected setting (front ++ [.give other value]) = collected setting front := by
  rw [collected, valuesOf_concat_of_ne h, collected]

/-- The first value of a setting is taken if it can be read. -/
theorem once_single {α : Type} {read : String → Option α} (hread : (read value).isSome = true)
    (honce : (valuesOf setting (front ++ [.give setting value])).length ≤ 1) :
    Choices.once (single setting read front) (read value) =
      .ok (single setting read (front ++ [.give setting value])) := by
  have hnone : valuesOf setting front = [] := by
    rw [valuesOf_concat_self, List.length_append, List.length_singleton] at honce
    exact List.eq_nil_of_length_eq_zero (by omega)
  obtain ⟨a, ha⟩ := Option.isSome_iff_exists.mp hread
  simp [single, hnone, ha, Choices.once]

/-- A choice that is made once is made by the first value. -/
theorem choose_single {α : Type} {read : String → Option α} (hread : (read value).isSome = true)
    (honce : (valuesOf setting (front ++ [.give setting value])).length ≤ 1)
    (change : Option α → Choices) {c : Choices}
    (hc : change (single setting read (front ++ [.give setting value])) = c) :
    (Choices.once (single setting read front) (read value) >>= fun a => .ok (change a)) =
      .ok c := by
  rw [once_single hread honce, ← hc]
  rfl

theorem getD_collected (setting : Setting) (groups : List Group) :
    (collected setting groups).getD [] = (valuesOf setting groups).flatMap wordsOf := by
  by_cases h : valuesOf setting groups = [] <;> simp [collected, h]

theorem more_collected :
    Choices.more (collected setting front) value =
      collected setting (front ++ [.give setting value]) := by
  by_cases h : valuesOf setting front = [] <;> simp [Choices.more, collected, h]

end

/-! ## Groups one after the other -/

theorem pathOfWord?_of_ne {path : String} (h : path ≠ "") : pathOfWord? path = some path :=
  if_neg h

theorem isSome_pathOfWord? {path : String} (h : path ≠ "") : (pathOfWord? path).isSome = true := by
  rw [pathOfWord?_of_ne h]
  rfl

namespace Choices

variable {front : List Group}

/-- A value that is allowed where it stands adds to the choices what it says. -/
theorem ofGroups_concat_give {setting : Setting} {value : String} (htakes : setting.Takes value)
    (honce : setting.isList = false →
      (valuesOf setting (front ++ [.give setting value])).length ≤ 1) :
    (ofGroups front).set setting value = .ok (ofGroups (front ++ [.give setting value])) := by
  cases setting with
  | grammar =>
      refine choose_single (isSome_pathOfWord? htakes.1) (honce rfl)
        (fun grammar => { ofGroups front with grammar }) ?_
      simp [ofGroups]
  | dialect =>
      have hread := (by decide :
        ∀ word ∈ ["generic", "scala", "rust"], (Dialect.ofName? word).isSome = true) value htakes
      refine choose_single hread (honce rfl) (fun dialect => { ofGroups front with dialect }) ?_
      simp [ofGroups]
  | format =>
      have hread := (by decide :
        ∀ word ∈ ["text", "json"], (Format.ofName? word).isSome = true) value htakes
      refine choose_single hread (honce rfl) (fun format => { ofGroups front with format }) ?_
      simp [ofGroups]
  | indirection =>
      have hread := (by decide :
        ∀ word ∈ ["box", "rc", "arc"], (indirectionOfName? word).isSome = true) value htakes
      refine choose_single hread (honce rfl)
        (fun indirection => { ofGroups front with indirection }) ?_
      simp [ofGroups]
  | color =>
      have hread := (by decide :
        ∀ word ∈ ["auto", "always", "never"], (ColorChoice.ofName? word).isSome = true)
          value htakes
      refine choose_single hread (honce rfl) (fun color => { ofGroups front with color }) ?_
      simp [ofGroups]
  | output =>
      refine choose_single (isSome_pathOfWord? htakes.1) (honce rfl)
        (fun output => { ofGroups front with output }) ?_
      simp [ofGroups]
  | reserved =>
      refine congrArg Except.ok ?_
      simp [ofGroups, more_collected]
  | derive =>
      refine congrArg Except.ok ?_
      simp [ofGroups, more_collected]

theorem ofGroups_concat_turn {switch : Switch} (hswitch : switch = .noDerive ∨ switch = .noHeader)
    (honce : (front ++ [Group.turn switch]).count (.turn switch) ≤ 1) :
    (ofGroups front).turnOn switch = .ok (ofGroups (front ++ [.turn switch])) := by
  have hnew : Group.turn switch ∉ front := by
    rw [List.count_append, List.count_singleton_self] at honce
    exact List.count_eq_zero.mp (by omega)
  rcases hswitch with rfl | rfl
  · simp [turnOn, ofGroups, hnew, single, collected]
  · simp [turnOn, ofGroups, hnew, single, collected]

end Choices

/-- Every group is as it may be, and no choice is made twice. -/
structure Unrepeated (groups : List Group) : Prop where
  sound : ∀ group ∈ groups, group.Sound
  once : ∀ setting : Setting, setting.isList = false → (valuesOf setting groups).length ≤ 1
  turned_once : ∀ switch : Switch, groups.count (.turn switch) ≤ 1

theorem Unrepeated.front {front : List Group} {last : Group} (h : Unrepeated (front ++ [last])) :
    Unrepeated front where
  sound group hgroup := h.sound group (List.mem_append_left _ hgroup)
  once setting hsetting := by
    have hle := h.once setting hsetting
    rw [valuesOf_concat, List.length_append] at hle
    omega
  turned_once switch := by
    have hle := h.turned_once switch
    rw [List.count_append] at hle
    omega

theorem foldlM_apply {groups : List Group} (h : Unrepeated groups) :
    groups.foldlM Choices.apply .none = .ok (.ofGroups groups) := by
  induction groups using List.reverseRecOn with
  | nil => rfl
  | append_singleton front last ih =>
      have hlast := h.sound last (List.mem_append_right _ (List.mem_singleton_self last))
      have hstep : (Choices.ofGroups front).apply last = .ok (.ofGroups (front ++ [last])) := by
        cases last with
        | give setting value => exact Choices.ofGroups_concat_give hlast (h.once setting)
        | turn switch => exact Choices.ofGroups_concat_turn hlast (h.turned_once switch)
      rw [List.foldlM_append, ih h.front]
      show ((Choices.ofGroups front).apply last >>= _) = _
      rw [hstep]
      rfl

/-! ## Groups in another order -/

/-- The same groups; those of a list setting follow each other as before. -/
structure Rearranges (groups' groups : List Group) : Prop where
  perm : groups'.Perm groups
  reserved : valuesOf .reserved groups' = valuesOf .reserved groups
  derive : valuesOf .derive groups' = valuesOf .derive groups

section

variable {groups groups' : List Group} (h : Unrepeated groups) (hsame : Rearranges groups' groups)

include h hsame

theorem valuesOf_rearranged (setting : Setting) :
    valuesOf setting groups' = valuesOf setting groups := by
  by_cases hlist : setting.isList = true
  · cases setting with
    | reserved => exact hsame.reserved
    | derive => exact hsame.derive
    | _ => cases hlist
  · rw [Bool.not_eq_true] at hlist
    have hperm : (valuesOf setting groups').Perm (valuesOf setting groups) :=
      hsame.perm.filterMap _
    have hle := h.once setting hlist
    match hvalues : valuesOf setting groups with
    | [] =>
        rw [hvalues] at hperm
        exact hperm.eq_nil
    | [value] =>
        rw [hvalues] at hperm
        exact List.perm_singleton.mp hperm
    | first :: second :: rest =>
        rw [hvalues, List.length_cons, List.length_cons] at hle
        omega

theorem ofGroups_rearranged : Choices.ofGroups groups' = Choices.ofGroups groups := by
  simp only [Choices.ofGroups, single, collected, valuesOf_rearranged h hsame,
    hsame.perm.mem_iff]

theorem Unrepeated.rearranged : Unrepeated groups' where
  sound group hgroup := h.sound group (hsame.perm.mem_iff.mp hgroup)
  once setting hsetting := by
    rw [valuesOf_rearranged h hsame]
    exact h.once setting hsetting
  turned_once switch := by
    rw [hsame.perm.count_eq]
    exact h.turned_once switch

end

/-! ## The line -/

/-- There is a path, and no traits are named where none are wanted. -/
structure Admissible (groups : List Group) : Prop extends Unrepeated groups where
  has_path : valuesOf .grammar groups ≠ []
  compatible : .turn .noDerive ∈ groups → valuesOf .derive groups = []

theorem mem_valuesOf {setting : Setting} {value : String} {groups : List Group} :
    value ∈ valuesOf setting groups ↔ .give setting value ∈ groups := by
  unfold valuesOf
  rw [List.mem_filterMap]
  constructor
  · rintro ⟨group, hgroup, hvalue⟩
    cases group with
    | give given other =>
        by_cases hsame : given = setting
        · simp only [Group.value?, hsame, if_true, Option.some.injEq] at hvalue
          rwa [hsame, hvalue] at hgroup
        · simp only [Group.value?, if_neg hsame] at hvalue
          cases hvalue
    | turn switch => cases hvalue
  · intro hgroup
    exact ⟨_, hgroup, if_pos rfl⟩

theorem Unrepeated.takes {groups : List Group} (h : Unrepeated groups) {setting : Setting}
    {value : String} (hvalue : value ∈ valuesOf setting groups) : setting.Takes value :=
  h.sound _ (mem_valuesOf.mp hvalue)

/-- Paths are read as they are. -/
theorem single_path {setting : Setting} {groups : List Group}
    (hne : ∀ path ∈ valuesOf setting groups, path ≠ "") :
    single setting pathOfWord? groups = (valuesOf setting groups).head? := by
  unfold single
  cases hvalues : valuesOf setting groups with
  | nil => rfl
  | cons path rest =>
      exact pathOfWord?_of_ne (hne path (by rw [hvalues]; exact List.mem_cons_self))

/-- Each choice that is made once is made by its group, or left as it is by default. -/
structure RecordsCommand.Follows (c : RecordsCommand) (groups : List Group) : Prop where
  grammar : valuesOf .grammar groups = [c.grammar]
  dialect : c.dialect = (single .dialect Dialect.ofName? groups).getD .generic
  format : c.format = (single .format Format.ofName? groups).getD .text
  indirection : c.indirection = (single .indirection indirectionOfName? groups).getD .box
  colorChoice : c.colorChoice = (single .color ColorChoice.ofName? groups).getD .auto
  output : c.output = (valuesOf .output groups).head?
  header : c.header = decide (.turn .noHeader ∉ groups)
  noDerive : c.noDerive = decide (.turn .noDerive ∈ groups)

/-- The traits that groups name, or none of their own. -/
def derivesOf (groups : List Group) : Option (List String) :=
  if .turn .noDerive ∈ groups then some []
  else if valuesOf .derive groups = [] then none
  else some (((valuesOf .derive groups).flatMap wordsOf).map Text.pascalCase)

theorem read_records {words : List String} {c : Choices} {command : Command}
    (hread : readChoices .records words = .ok c) (hverbose : c.verbose = 0)
    (hcommand : c.command .records = .ok command) :
    read ("records" :: words) = .ok ⟨0, command⟩ := by
  have hverb : Verb.ofName? "records" = some .records := by decide
  have hline : read ("records" :: words) = readVerb .records 0 words := by
    simp only [read, readLine, classify_of_verb hverb, hverb]
    rfl
  rw [hline, readVerb, hread]
  show (c.command .records >>= _) = _
  rw [hcommand, hverbose]
  rfl

section

variable {groups : List Group} (h : Admissible groups)

include h

theorem Admissible.exists_path : ∃ path, valuesOf .grammar groups = [path] := by
  have hle := h.once .grammar rfl
  have hpos := List.length_pos_iff.mpr h.has_path
  exact List.length_eq_one_iff.mp (by omega)

theorem Admissible.no_conflict :
    ((Choices.ofGroups groups).noDerive && (Choices.ofGroups groups).derive.isSome) = false := by
  show (decide (.turn .noDerive ∈ groups) && (collected .derive groups).isSome) = false
  by_cases hturned : .turn .noDerive ∈ groups
  · rw [collected, if_pos (h.compatible hturned)]
    exact Bool.and_false _
  · rw [decide_eq_false hturned]
    exact Bool.false_and _

/-- What is said, and what is left as it is, makes one command. -/
theorem Admissible.exists_command :
    ∃ c : RecordsCommand, (Choices.ofGroups groups).command .records = .ok (.records c) ∧
      c.Follows groups ∧ c.reserved = (valuesOf .reserved groups).flatMap wordsOf ∧
      c.derives = derivesOf groups := by
  obtain ⟨path, hpath⟩ := h.exists_path
  have hgrammar : (Choices.ofGroups groups).grammar = some path := by
    have hne : ∀ value ∈ valuesOf .grammar groups, value ≠ "" := fun value hvalue =>
      (show Setting.Takes .grammar value from h.takes hvalue).1
    show single .grammar pathOfWord? groups = some path
    rw [single_path hne, hpath]
    rfl
  have houtput : single .output pathOfWord? groups = (valuesOf .output groups).head? :=
    single_path fun value hvalue => (show IsValue value from h.takes hvalue).1
  refine ⟨⟨path, (single .dialect Dialect.ofName? groups).getD default,
    (collected .reserved groups).getD [], collected .derive groups,
    decide (.turn .noDerive ∈ groups), (single .indirection indirectionOfName? groups).getD default,
    !decide (.turn .noHeader ∈ groups), (single .format Format.ofName? groups).getD default,
    (valuesOf .output groups).head?, (single .color ColorChoice.ofName? groups).getD default⟩,
    ?_, ?_, ?_, ?_⟩
  · rw [← houtput]
    simp only [Choices.command, h.no_conflict, hgrammar]
    rfl
  · exact ⟨hpath, rfl, rfl, rfl, rfl, rfl, (decide_not).symm, rfl⟩
  · exact getD_collected .reserved groups
  · by_cases hturned : Group.turn .noDerive ∈ groups <;>
      by_cases hvalues : valuesOf .derive groups = [] <;>
      simp [RecordsCommand.derives, derivesOf, collected, hturned, hvalues]

end

/--
A line of a path, of options that may be given once and of any number of list
options is read as one command, however its groups are spelled and in whatever
order they come.  Only the order of the values of either list matters: the words
between their commas are the reserved words, and the traits before conversion.
-/
theorem records_in_any_order {groups : List Group} (h : Admissible groups) :
    ∃ c : RecordsCommand, c.Follows groups ∧
      c.reserved = (valuesOf .reserved groups).flatMap wordsOf ∧ c.derives = derivesOf groups ∧
      ∀ groups' words, Rearranges groups' groups → Line groups' words →
        read ("records" :: words) = .ok ⟨0, .records c⟩ := by
  obtain ⟨c, hcommand, hfollows, hreserved, hderives⟩ := h.exists_command
  refine ⟨c, hfollows, hreserved, hderives, fun groups' words hsame hline => ?_⟩
  have hunrepeated : Unrepeated groups' := h.toUnrepeated.rearranged hsame
  have hread : readChoices .records words = .ok (.ofGroups groups) := by
    rw [← ofGroups_rearranged h.toUnrepeated hsame]
    exact readChoices_line hline hunrepeated.sound (foldlM_apply hunrepeated)
  exact read_records hread rfl hcommand

/-- Reserved words with an empty one among them, and a file name with an equals sign. -/
def mixedGroups : List Group :=
  [.give .reserved "node,,span", .give .grammar "g.json", .turn .noHeader,
    .give .derive "debug,partial_eq", .give .dialect "rust", .give .reserved "kind",
    .give .output "a=b.rs", .give .color "never"]

/-- The same groups, those of the reserved words still one before the other. -/
def remixedGroups : List Group :=
  [.give .dialect "rust", .give .output "a=b.rs", .give .reserved "node,,span",
    .give .color "never", .give .reserved "kind", .give .grammar "g.json",
    .give .derive "debug,partial_eq", .turn .noHeader]

theorem admissible_mixedGroups : Admissible mixedGroups where
  sound := by decide
  once setting := by cases setting <;> decide
  turned_once switch := by cases switch <;> decide
  has_path := by decide
  compatible := by decide

theorem records_in_any_order_mixed :
    Admissible mixedGroups ∧
    ∃ c : RecordsCommand, c.reserved = ["node", "span", "kind"] ∧
      c.derives = some ["Debug", "PartialEq"] ∧
      read ["records", "--reserved", "node,,span", "g.json", "--no-header",
        "--derive=debug,partial_eq", "-d", "rust", "--reserved=kind", "-oa=b.rs",
        "--color=never"] = .ok ⟨0, .records c⟩ ∧
      read ["records", "-d=rust", "--output=a=b.rs", "--reserved=node,,span", "--color", "never",
        "--reserved", "kind", "g.json", "--derive", "debug,partial_eq", "--no-header"] =
          .ok ⟨0, .records c⟩ := by
  obtain ⟨c, -, hreserved, hderives, hread⟩ := records_in_any_order admissible_mixedGroups
  refine ⟨admissible_mixedGroups, c, ?_, ?_, ?_, ?_⟩
  · rw [hreserved]
    decide +kernel
  · rw [hderives]
    decide +kernel
  · have hline : Line mixedGroups _ :=
      .cons (@Group.Spelled.long .reserved "reserved" _ rfl) <| .cons (.path _) <|
      .cons (@Group.Spelled.switch .noHeader "no-header" rfl) <|
      .cons (@Group.Spelled.longEquals .derive "derive" _ rfl) <|
      .cons (@Group.Spelled.short .dialect 'd' _ rfl) <|
      .cons (@Group.Spelled.longEquals .reserved "reserved" _ rfl) <|
      .cons (@Group.Spelled.shortAttached .output 'o' _ rfl) <|
      .cons (@Group.Spelled.longEquals .color "color" _ rfl) .nil
    refine (congrArg read ?_).trans (hread mixedGroups _ ⟨.refl _, rfl, rfl⟩ hline)
    decide +kernel
  · have hline : Line remixedGroups _ :=
      .cons (@Group.Spelled.shortEquals .dialect 'd' _ rfl) <|
      .cons (@Group.Spelled.longEquals .output "output" _ rfl) <|
      .cons (@Group.Spelled.longEquals .reserved "reserved" _ rfl) <|
      .cons (@Group.Spelled.long .color "color" _ rfl) <|
      .cons (@Group.Spelled.long .reserved "reserved" _ rfl) <| .cons (.path _) <|
      .cons (@Group.Spelled.long .derive "derive" _ rfl) <|
      .cons (@Group.Spelled.switch .noHeader "no-header" rfl) .nil
    refine (congrArg read ?_).trans
      (hread remixedGroups _ ⟨by decide, by decide, by decide⟩ hline)
    decide +kernel

end CommandLine
end GrammarRecords
