/-
Rules that are defined more than once.

A grammar comes from definitions one after the other, from the text of a grammar
file or from packed bytes.  Each of the three inserts the rules into a table in
the order in which they stand, and a file lowers the table while the others have
lowered bodies to insert.  Lowering the values of a table is the same before and
after inserting, so the three end with one table, whatever names are repeated:
`loaded_eq_ofRules`.  What stands in it is what stands in any table made from
pairs: a name has its first place and its last body.
-/
import GrammarRecords.Proofs.Grammar.Rearranging
import GrammarRecords.Proofs.Packed.Limits

namespace GrammarRecords

open Json (Value)

/-! ## Rules as JSON -/

def Wrapper.tag : Wrapper → Tag
  | field => .field
  | aliased => .aliased
  | prec => .prec
  | precLeft => .precLeft
  | precRight => .precRight
  | precDynamic => .precDynamic
  | reserved => .reserved

def TokenKind.tag : TokenKind → Tag
  | plain => .token
  | immediate => .immediateToken

theorem Tag.ofName?_name (tag : Tag) : ofName? tag.name = some tag := by
  cases tag <;> decide

namespace Expression

def tagged (tag : Tag) (key : String) (payload : Value) : Value :=
  .object [("type", .string tag.name), (key, payload)]

mutual

/-- The expression with no more members than its tag has a use for. -/
def toJson : Expression → Value
  | blank => .object [("type", .string Tag.blank.name)]
  | string value => tagged .string "value" (.string value)
  | pattern value => tagged .pattern "value" (.string value)
  | symbol name => tagged .symbol "name" (.string name)
  | seq members => tagged .seq "members" (.array (toJsonAll members))
  | choice members => tagged .choice "members" (.array (toJsonAll members))
  | repeat0 content => tagged .repeat0 "content" (toJson content)
  | repeat1 content => tagged .repeat1 "content" (toJson content)
  | token kind content => tagged kind.tag "content" (toJson content)
  | wrapped wrapper content => tagged wrapper.tag "content" (toJson content)

def toJsonAll : List Expression → List Value
  | [] => []
  | e :: rest => toJson e :: toJsonAll rest

end

theorem ofJson_tagged {tag : Tag} {key : String} (hkey : tag.key? = some key) (v : Value) :
    ofJson (tagged tag key v) = tag.build v (fun _ => ofJson v) (fun _ => ofSequence v) := by
  have htype : key ≠ "type" := fun h => GrammarFile.key?_ne_type tag (h ▸ hkey)
  have hfind : Tag.find none [("type", .string tag.name), (key, v)] = .ok tag := by
    simp [Tag.find, Tag.ofJson, Tag.ofText, Tag.ofName?_name, htype]
  have hother : tag.key? ≠ some "type" := GrammarFile.key?_ne_type tag
  rw [tagged, ofJson, hfind]
  show ofMembers tag none _ = _
  rw [ofMembers, if_neg hother, ofMembers, if_pos hkey, if_neg (by simp)]
  cases tag.build v (fun _ => ofJson v) fun _ => ofSequence v with
  | error e => rfl
  | ok e =>
      show ofMembers tag (some e) [] = .ok e
      rw [ofMembers]

mutual

theorem ofJson_toJson : ∀ e : Expression, ofJson e.toJson = .ok e
  | blank => rfl
  | string value => ofJson_tagged rfl _
  | pattern value => ofJson_tagged rfl _
  | symbol name => ofJson_tagged rfl _
  | seq members => by
      have hmembers := ofJsonAll_toJsonAll members
      rw [toJson, ofJson_tagged rfl, ofSequence, hmembers]
      rfl
  | choice members => by
      have hmembers := ofJsonAll_toJsonAll members
      rw [toJson, ofJson_tagged rfl, ofSequence, hmembers]
      rfl
  | repeat0 content => by
      have hcontent := ofJson_toJson content
      rw [toJson, ofJson_tagged rfl, hcontent]
      rfl
  | repeat1 content => by
      have hcontent := ofJson_toJson content
      rw [toJson, ofJson_tagged rfl, hcontent]
      rfl
  | token kind content => by
      have hcontent := ofJson_toJson content
      cases kind <;> rw [toJson, ofJson_tagged rfl, hcontent] <;> rfl
  | wrapped wrapper content => by
      have hcontent := ofJson_toJson content
      cases wrapper <;> rw [toJson, ofJson_tagged rfl, hcontent] <;> rfl

theorem ofJsonAll_toJsonAll : ∀ es : List Expression, ofJsonAll (toJsonAll es) = .ok es
  | [] => rfl
  | e :: rest => by
      have hfirst := ofJson_toJson e
      have hrest := ofJsonAll_toJsonAll rest
      rw [toJsonAll, ofJsonAll, hfirst, hrest]
      rfl

end

theorem hasNamedTag_toJson (e : Expression) : GrammarFile.hasNamedTag e.toJson = true := by
  cases e <;> simp [toJson, tagged, GrammarFile.hasNamedTag, Json.Value.text?]

theorem rule?_toJson {e : Expression} (h : e.toJson.fits (GrammarFile.depthInRule + 1) = true) :
    GrammarFile.rule? e.toJson = some e := by
  rw [GrammarFile.rule?, h, hasNamedTag_toJson, ofJson_toJson]
  rfl

theorem numberFree_tagged (tag : Tag) (key : String) {v : Value} (h : v.NumberFree) :
    (tagged tag key v).NumberFree :=
  .object (List.forall_mem_cons.mpr ⟨.string _, List.forall_mem_singleton.mpr h⟩)

mutual

theorem numberFree_toJson : ∀ e : Expression, e.toJson.NumberFree
  | blank => .object (List.forall_mem_singleton.mpr (.string _))
  | string value => numberFree_tagged _ _ (.string value)
  | pattern value => numberFree_tagged _ _ (.string value)
  | symbol name => numberFree_tagged _ _ (.string name)
  | seq members => numberFree_tagged _ _ (.array (numberFree_toJsonAll members))
  | choice members => numberFree_tagged _ _ (.array (numberFree_toJsonAll members))
  | repeat0 content => numberFree_tagged _ _ (numberFree_toJson content)
  | repeat1 content => numberFree_tagged _ _ (numberFree_toJson content)
  | token _ content => numberFree_tagged _ _ (numberFree_toJson content)
  | wrapped _ content => numberFree_tagged _ _ (numberFree_toJson content)

theorem numberFree_toJsonAll : ∀ es : List Expression, ∀ v ∈ toJsonAll es, v.NumberFree
  | [] => List.forall_mem_nil _
  | e :: rest => List.forall_mem_cons.mpr ⟨numberFree_toJson e, numberFree_toJsonAll rest⟩

end

end Expression

/-- A rule as a member of the object of rules, no deeper than a file may be. -/
structure Written (rule : String × Expression) (m : String × Value) : Prop where
  name : rule.1 = m.1
  body : Rearranged rule.2.toJson m.2
  depth : m.2.fits (GrammarFile.depthInRule + 1) = true

theorem Written.rule?_eq {rule : String × Expression} {m : String × Value} (h : Written rule m) :
    GrammarFile.rule? m.2 = some rule.2 := by
  have hdepth := h.depth
  rw [← h.body.sameRule.fits] at hdepth
  rw [← h.body.sameRule.rule?_eq, Expression.rule?_toJson hdepth]

theorem written_toJson {rules : List (String × Expression)}
    (h : ∀ rule ∈ rules, rule.2.toJson.fits (GrammarFile.depthInRule + 1) = true) :
    List.Forall₂ Written rules (rules.map fun rule => (rule.1, rule.2.toJson)) := by
  rw [List.forall₂_map_right_iff, List.forall₂_same]
  exact fun rule hrule => ⟨rfl, .refl _, h rule hrule⟩

theorem fileText_printed_toJson (name : String) (rules : List (String × Expression)) :
    let values := rules.map fun rule => (rule.1, rule.2.toJson)
    GrammarFile.FileText name values (GrammarFile.printed name values).toList := by
  refine GrammarFile.fileText_printed name fun m hm => ?_
  obtain ⟨rule, -, rfl⟩ := List.mem_map.mp hm
  exact rule.2.numberFree_toJson

/-! ## Three ways to the table -/

namespace Grammar

open Packed
open GrammarFile (FileText)

def lowered (rules : List (String × Expression)) : List (String × RuleBody) :=
  rules.map fun rule => (rule.1, rule.2.body)

/-- The rules are defined one after the other. -/
def ofRules (name : String) (rules : List (String × RuleBody)) : Grammar :=
  rules.foldl (fun g rule => g.withRule rule.1 rule.2) (named name)

theorem ofRules_eq_ofList (name : String) (rules : List (String × RuleBody)) :
    ofRules name rules = ⟨name, .ofList rules⟩ := by
  induction rules using List.reverseRecOn with
  | nil => rfl
  | append_singleton rules rule ih =>
      rw [Table.ofList_concat, ofRules, List.foldl_concat]
      exact congrArg (withRule · rule.1 rule.2) ih

theorem ofFileText_written {name text : String} {rules : List (String × Expression)}
    {values : List (String × Value)} (h : List.Forall₂ Written rules values)
    (htext : FileText name values text.toList) :
    ofFileText text = .ok (ofRules name (lowered rules)) := by
  have htable : GrammarFile.table? values = some (.ofList rules) :=
    GrammarFile.table?_eq_ofList (h.imp fun rule m hm => ⟨hm.name, hm.rule?_eq⟩)
  rw [ofFileText_eq_ok_iff htext, ofRules_eq_ofList]
  refine ⟨_, htable, ?_⟩
  rw [ofContents, Table.mapValues_ofList]
  rfl

/-- Packed rules, with as many entries as there are definitions. -/
def packedRules (name : String) (rules : List (String × RuleBody)) : Bytes :=
  mark ++ formatVersion :: (Packed.text name ++ list packedRule rules)

structure RulesFit (name : String) (rules : List (String × RuleBody)) : Prop where
  name : name.utf8ByteSize < countLimit
  count : rules.length < countLimit
  rules : ∀ rule ∈ rules, rule.1.utf8ByteSize < countLimit ∧ rule.2.Fits

theorem unpack_packedRules {name : String} {rules : List (String × RuleBody)}
    (h : RulesFit name rules) (junk : Bytes) :
    unpack (packedRules name rules ++ junk) = .ok (ofRules name rules) := by
  have hread := readPayload_rules h.name h.count h.rules junk
  rw [ofRules_eq_ofList]
  exact unpack_eq_of_readPayload hread

/-! ## What stands in the table -/

def lastBody? (rules : List (String × RuleBody)) (name : String) : Option RuleBody :=
  (rules.findRev? fun rule => rule.1 = name).map Prod.snd

theorem rule?_ofRules (name n : String) (rules : List (String × RuleBody)) :
    (ofRules name rules).rule? n = lastBody? rules n := by
  rw [ofRules_eq_ofList, rule?, Table.get?_ofList, lastBody?]

theorem keys_ofRules (name : String) (rules : List (String × RuleBody)) :
    (ofRules name rules).rules.keys = (rules.map Prod.fst).eraseDups := by
  rw [ofRules_eq_ofList, Table.keys_ofList]

/--
Rules with repeated names, defined one after the other, written in any grammar
file or packed, make one grammar.  The names in it are distinct and stand in the
order of their first occurrences, each with the body of its last.
-/
theorem loaded_eq_ofRules (name : String) (rules : List (String × Expression)) :
    let g := ofRules name (lowered rules)
    (∀ {values : List (String × Value)} {text : String}, List.Forall₂ Written rules values →
        FileText name values text.toList → ofFileText text = .ok g) ∧
      (RulesFit name (lowered rules) → ∀ junk,
        unpack (packedRules name (lowered rules) ++ junk) = .ok g) ∧
      g.name = name ∧ g.rules.keys.Nodup ∧ g.rules.keys = (rules.map Prod.fst).eraseDups ∧
      (∀ rule ∈ g.rules.entries, lastBody? (lowered rules) rule.1 = some rule.2) ∧
      ∀ n, g.rule? n = lastBody? (lowered rules) n := by
  intro g
  have hrule : ∀ n, g.rule? n = lastBody? (lowered rules) n := fun n => rule?_ofRules name n _
  have hnames : (lowered rules).map Prod.fst = rules.map Prod.fst := by
    rw [lowered, List.map_map]
    rfl
  refine ⟨ofFileText_written, unpack_packedRules, ?_, g.rules.nodup, ?_, ?_, hrule⟩
  · exact congrArg Grammar.name (ofRules_eq_ofList name (lowered rules))
  · rw [keys_ofRules, hnames]
  · intro rule hentry
    rw [← hrule]
    exact Table.get?_eq_some_iff.mpr hentry

/-- One name between the two occurrences of another. -/
def repeatedRules : List (String × Expression) :=
  [("b", .symbol "a"), ("a", .blank), ("b", .wrapped .field (.string "y"))]

theorem rulesFit_repeatedRules : RulesFit "g" (lowered repeatedRules) where
  name := by decide
  count := by decide
  rules := by
    have hone : 1 < countLimit := by decide
    have hleaf {kind : NodeKind} {text : Option String}
        (h : ∀ s ∈ text, s.utf8ByteSize < countLimit) :
        RuleBody.Fits ⟨[some (.alternative [.mk kind text []])]⟩ := by
      refine ⟨hone, fun n hn => ?_⟩
      obtain rfl : n = .alternative [.mk kind text []] := by simpa using hn
      exact ⟨nofun, hone, ⟨h, Nat.lt_of_succ_lt hone, trivial⟩, trivial⟩
    refine List.forall_mem_cons.mpr ⟨⟨by decide, hleaf (by decide)⟩, ?_⟩
    refine List.forall_mem_cons.mpr ⟨⟨by decide, hleaf (by decide)⟩, ?_⟩
    exact List.forall_mem_singleton.mpr ⟨by decide, hleaf (by decide)⟩

theorem loaded_eq_ofRules_repeatedRules :
    let values := repeatedRules.map fun rule => (rule.1, rule.2.toJson)
    let g := ofContents ("g", .ofList [("b", .string "y"), ("a", .blank)])
    ofFileText (GrammarFile.printed "g" values) = .ok g ∧
      unpack (packedRules "g" (lowered repeatedRules) ++ [0x07]) = .ok g ∧
      g.rules.keys = ["b", "a"] := by
  intro values g
  have hg : ofRules "g" (lowered repeatedRules) = g := rfl
  obtain ⟨hfile, hpacked, -, -, hkeys, -⟩ := loaded_eq_ofRules "g" repeatedRules
  rw [hg] at hfile hpacked hkeys
  have hwritten : List.Forall₂ Written repeatedRules values := written_toJson (by decide)
  exact ⟨hfile hwritten (fileText_printed_toJson "g" repeatedRules),
    hpacked rulesFit_repeatedRules [0x07], hkeys⟩

end Grammar
end GrammarRecords
