/-
Grammar files are no smaller than what is read from them.

The texts and the expressions of a file are counted as `weight`.  Decoding a
value keeps its weight or lowers it, and lowering an expression makes no list
that is longer than the weight of what it comes from.  With the bound on what a
reader takes from the text, a grammar from a file that is short enough can be
packed: `fits_of_ofFileText`.
-/
import GrammarRecords.Proofs.Grammar.RuleText
import GrammarRecords.Proofs.Json.Size
import GrammarRecords.Proofs.Packed.Limits
import Mathlib.Algebra.Order.BigOperators.Group.List

namespace GrammarRecords

open Json (Cursor)
open Packed (countLimit)

/-! ## Expressions -/

namespace Expression

mutual

/-- One for each expression, and the bytes of all texts. -/
def weight : Expression → Nat
  | blank => 1
  | string value => 1 + value.utf8ByteSize
  | pattern value => 1 + value.utf8ByteSize
  | symbol name => 1 + name.utf8ByteSize
  | seq members => 1 + weightOfAll members
  | choice members => 1 + weightOfAll members
  | repeat0 content => 1 + weight content
  | repeat1 content => 1 + weight content
  | token _ content => 1 + weight content
  | wrapped _ content => 1 + weight content

def weightOfAll : List Expression → Nat
  | [] => 0
  | e :: rest => weight e + weightOfAll rest

end

theorem weight_pos (e : Expression) : 0 < e.weight := by
  cases e <;> rw [weight] <;> omega

end Expression

namespace Tag

theorem weight_text {tag : Tag} {f : String → Expression} (h : tag.payload = .text f)
    (s : String) : (f s).weight = 1 + s.utf8ByteSize := by
  cases tag <;> cases h <;> rfl

theorem weight_expression {tag : Tag} {f : Expression → Expression}
    (h : tag.payload = .expression f) (e : Expression) : (f e).weight = 1 + e.weight := by
  cases tag <;> cases h <;> rfl

theorem weight_expressions {tag : Tag} {f : List Expression → Expression}
    (h : tag.payload = .expressions f) (es : List Expression) :
    (f es).weight = 1 + Expression.weightOfAll es := by
  cases tag <;> cases h <;> rfl

theorem weight_build (tag : Tag) (v : Json.Value)
    {expression : Unit → Except Mismatch Expression}
    {expressions : Unit → Except Mismatch (List Expression)}
    (hone : Yields (expression ()) fun e => e.weight ≤ v.weight)
    (hall : Yields (expressions ()) fun es => Expression.weightOfAll es ≤ v.weight) :
    Yields (tag.build v expression expressions) fun e => e.weight ≤ 1 + v.weight := by
  unfold build
  split
  · exact .ok (Nat.le_add_right 1 _)
  · rename_i f hpayload
    split
    · exact .ok (Nat.le_of_eq (weight_text hpayload _))
    · exact .error _
  · rename_i f hpayload
    refine hone.map fun e he => ?_
    rw [weight_expression hpayload]
    omega
  · rename_i f hpayload
    refine hall.map fun es hes => ?_
    rw [weight_expressions hpayload]
    omega

end Tag

namespace Expression

mutual

theorem weight_ofJson : ∀ v : Json.Value, Yields (ofJson v) fun e => e.weight ≤ v.weight
  | .null => .error _
  | .bool _ => .error _
  | .number _ => .error _
  | .string _ => .error _
  | .array [] => .error _
  | .array (tag :: fields) => by
      rw [ofJson]
      refine (Yields.any (Tag.ofJson tag)).bind fun t _ => (weight_ofFields t fields).mono ?_
      intro e he
      simp only [Json.Value.weight, Json.Value.weightOfElements]
      omega
  | .object members => by
      rw [ofJson]
      refine (Yields.any (Tag.find none members)).bind fun t _ => ?_
      exact weight_ofMembers t none members

theorem weight_ofJsonAll : ∀ vs : List Json.Value,
    Yields (ofJsonAll vs) fun es => weightOfAll es ≤ Json.Value.weightOfElements vs
  | [] => .ok (Nat.le_refl _)
  | v :: rest => by
      rw [ofJsonAll]
      refine (weight_ofJson v).bind fun e he => (weight_ofJsonAll rest).bind fun es hes => .ok ?_
      simp only [weightOfAll, Json.Value.weightOfElements]
      omega

theorem weight_ofSequence : ∀ v : Json.Value,
    Yields (ofSequence v) fun es => weightOfAll es ≤ v.weight
  | .null => .error _
  | .bool _ => .error _
  | .number _ => .error _
  | .string _ => .error _
  | .array vs => by
      refine (weight_ofJsonAll vs).mono fun es hes => ?_
      rw [Json.Value.weight]
      omega
  | .object _ => .error _

theorem weight_ofFields (tag : Tag) : ∀ vs : List Json.Value,
    Yields (ofFields tag vs) fun e => e.weight ≤ 1 + Json.Value.weightOfElements vs
  | [] => by
      rw [ofFields]
      split
      · exact .ok (Nat.le_refl _)
      · exact .error _
  | v :: rest => by
      rw [ofFields]
      split
      · exact .error _
      · refine (tag.weight_build v (weight_ofJson v) (weight_ofSequence v)).bind fun e he => ?_
        split
        · refine .ok ?_
          simp only [Json.Value.weightOfElements]
          omega
        · exact .error _

theorem weight_ofMembers (tag : Tag) (found : Option Expression) :
    ∀ ms : List (String × Json.Value), Yields (ofMembers tag found ms)
      fun e => e.weight ≤ found.elim 1 weight + Json.Value.weightOfMembers ms
  | [] => by
      rw [ofMembers.eq_def]
      simp only
      split
      · exact .ok (Nat.le_refl _)
      · exact .ok (Nat.le_refl _)
      · exact .error _
  | (key, v) :: rest => by
      rw [ofMembers]
      split
      · split
        · exact .error _
        · refine (tag.weight_build v (weight_ofJson v) (weight_ofSequence v)).bind fun e he => ?_
          refine (weight_ofMembers tag (some e) rest).mono fun e' he' => ?_
          have hfound : 1 ≤ found.elim 1 weight := by
            cases found with
            | none => exact Nat.le_refl _
            | some e => exact e.weight_pos
          simp only [Json.Value.weightOfMembers, Option.elim_some] at he' ⊢
          omega
      · refine (weight_ofMembers tag found rest).mono fun e he => ?_
        rw [Json.Value.weightOfMembers]
        omega

end

end Expression

/-! ## Trees -/

namespace Node

theorem fits_inner {ns : List Node} (kind : NodeKind) (hall : AllFit ns)
    (hcount : ns.length < countLimit) : (Node.mk kind none ns).Fits :=
  ⟨fun _ h => (nomatch h), hcount, hall⟩

theorem fits_leaf {text : Option String} (kind : NodeKind)
    (htext : ∀ s, text = some s → s.utf8ByteSize < countLimit) : (Node.mk kind text []).Fits :=
  ⟨htext, by decide, trivial⟩

theorem allFit_singleton {n : Node} (h : n.Fits) : AllFit [n] :=
  ⟨h, trivial⟩

theorem fits_only {n : Node} (kind : NodeKind) (h : n.Fits) : (Node.mk kind none [n]).Fits :=
  fits_inner kind (allFit_singleton h) (show 1 < countLimit by decide)

/-- Brackets around nodes: a block with the nodes as its only alternative. -/
theorem fits_group {ns : List Node} (hall : AllFit ns) (hcount : ns.length < countLimit) :
    (Node.block [.alternative ns]).Fits :=
  fits_only .block (fits_inner .alternative hall hcount)

theorem allFit_append {ns ms : List Node} (hns : AllFit ns) (hms : AllFit ms) :
    AllFit (ns ++ ms) := by
  rw [allFit_iff] at hns hms ⊢
  exact List.forall_mem_append.mpr ⟨hns, hms⟩

end Node

namespace Expression

theorem fits_choiceNode {ns : List Node} (hasBlank : Bool) (hall : Node.AllFit ns)
    (hcount : ns.length < countLimit) : (choiceNode hasBlank ns).Fits := by
  have hblock := Node.fits_inner .block hall hcount
  cases hasBlank with
  | false => exact hblock
  | true => exact Node.fits_only .optional hblock

theorem utf8ByteSize_literalText? {e : Expression} {s : String} (h : e.literalText? = some s) :
    s.utf8ByteSize < e.weight := by
  cases e <;> cases h <;> (rw [weight]; omega)

theorem leaf_fit {kind : NodeKind} {value : String} (h : 1 + value.utf8ByteSize < countLimit) :
    Node.AllFit [.mk kind (some value) []] ∧ [Node.mk kind (some value) []].length ≤
      1 + value.utf8ByteSize := by
  refine ⟨Node.allFit_singleton (Node.fits_leaf kind fun s hs => ?_), Nat.le_add_right 1 _⟩
  rw [← Option.some.inj hs]
  omega

mutual

/-- The bound on the length is for the expression that the children are put in. -/
theorem children_fit : ∀ {e : Expression}, e.weight < countLimit →
    Node.AllFit e.children ∧ e.children.length ≤ e.weight
  | blank, _ => ⟨Node.allFit_singleton (Node.fits_leaf .other fun _ h => nomatch h), Nat.le_refl 1⟩
  | string value, h => leaf_fit h
  | pattern value, h => leaf_fit h
  | symbol name, h => leaf_fit h
  | seq members, h => by
      rw [weight] at h ⊢
      have hterms := @terms_fit members (by omega)
      rw [children]
      exact ⟨hterms.1, by omega⟩
  | choice members, h => by
      rw [weight] at h ⊢
      have hbranches := @branches_fit members (by omega)
      have hnode := fits_choiceNode (members.any isBlank) hbranches.1 (by omega)
      rw [children]
      exact ⟨Node.allFit_singleton hnode, Nat.le_add_right 1 _⟩
  | repeat0 content, h => by
      rw [weight] at h ⊢
      have hcontent := @children_fit content (by omega)
      have hgroup := Node.fits_group hcontent.1 (by omega)
      rw [children]
      exact ⟨Node.allFit_singleton (Node.fits_only .zeroOrMore hgroup), Nat.le_add_right 1 _⟩
  | repeat1 content, h => by
      rw [weight] at h ⊢
      have hcontent := @children_fit content (by omega)
      have hgroup := Node.fits_group hcontent.1 (by omega)
      rw [children]
      exact ⟨Node.allFit_singleton (Node.fits_only .oneOrMore hgroup), Nat.le_add_right 1 _⟩
  | token _ content, h => by
      rw [weight] at h ⊢
      refine ⟨Node.allFit_singleton (Node.fits_leaf .terminal fun s hs => ?_), Nat.le_add_right 1 _⟩
      have htext := utf8ByteSize_literalText? hs
      omega
  | wrapped _ content, h => by
      rw [weight] at h ⊢
      have hcontent := @children_fit content (by omega)
      rw [children]
      exact ⟨hcontent.1, by omega⟩

theorem terms_fit : ∀ {ms : List Expression}, weightOfAll ms < countLimit →
    Node.AllFit (terms ms) ∧ (terms ms).length ≤ weightOfAll ms
  | [], _ => ⟨trivial, Nat.le_refl 0⟩
  | e :: rest, h => by
      rw [weightOfAll] at h ⊢
      have hpos := e.weight_pos
      have he := @children_fit e (by omega)
      have hrest := @terms_fit rest (by omega)
      rw [terms, List.length_append]
      split
      · have hgroup := Node.allFit_singleton (Node.fits_group he.1 (by omega))
        refine ⟨Node.allFit_append hgroup hrest.1, ?_⟩
        rw [List.length_singleton]
        omega
      · exact ⟨Node.allFit_append he.1 hrest.1, by omega⟩

theorem branches_fit : ∀ {ms : List Expression}, weightOfAll ms < countLimit →
    Node.AllFit (branches ms) ∧ (branches ms).length ≤ weightOfAll ms
  | [], _ => ⟨trivial, Nat.le_refl 0⟩
  | e :: rest, h => by
      rw [weightOfAll] at h ⊢
      have hpos := e.weight_pos
      have he := @children_fit e (by omega)
      have hrest := @branches_fit rest (by omega)
      rw [branches]
      split
      · exact ⟨hrest.1, by omega⟩
      · refine ⟨⟨Node.fits_inner .alternative he.1 (by omega), hrest.1⟩, ?_⟩
        rw [List.length_cons]
        omega

end

theorem fits_alternative {e : Expression} (h : e.weight < countLimit) :
    RuleBody.Fits ⟨[some (alternative e)]⟩ := by
  obtain ⟨hall, hcount⟩ := children_fit h
  refine ⟨show 1 < countLimit by decide, fun n hn => ?_⟩
  rw [Option.some.inj (List.mem_singleton.mp hn)]
  exact Node.fits_inner .alternative hall (Nat.lt_of_le_of_lt hcount h)

theorem fits_body : ∀ {e : Expression}, e.weight < countLimit → e.body.Fits
  | blank, h => fits_alternative h
  | string _, h => fits_alternative h
  | pattern _, h => fits_alternative h
  | symbol _, h => fits_alternative h
  | seq _, h => fits_alternative h
  | repeat0 _, h => fits_alternative h
  | repeat1 _, h => fits_alternative h
  | token _ _, h => fits_alternative h
  | wrapped _ content, h => by
      rw [weight] at h
      exact @fits_body content (by omega)
  | choice members, h => by
      rw [body]
      split
      · exact fits_alternative h
      · rw [weight] at h
        obtain ⟨hall, hcount⟩ := @branches_fit members (by omega)
        refine ⟨?_, fun n hn => ?_⟩
        · rw [List.length_map]
          omega
        · obtain ⟨m, hm, he⟩ := List.mem_map.mp hn
          rw [← Option.some.inj he]
          exact Node.allFit_iff.mp hall m hm

end Expression

/-! ## Files -/

namespace GrammarFile

def rulesWeight (rules : Table String Expression) : Nat :=
  (rules.entries.map fun rule => rule.1.utf8ByteSize + rule.2.weight).sum

def contentsWeight (contents : Contents) : Nat :=
  contents.1.utf8ByteSize + rulesWeight contents.2

theorem rulesWeight_insert_le (rules : Table String Expression) (name : String) (e : Expression) :
    rulesWeight (rules.insert name e) ≤ rulesWeight rules + (name.utf8ByteSize + e.weight) := by
  show ((put name e rules.entries).map fun rule => rule.1.utf8ByteSize + rule.2.weight).sum ≤
    (rules.entries.map fun rule => rule.1.utf8ByteSize + rule.2.weight).sum + _
  induction rules.entries with
  | nil => simp [put]
  | cons rule rest ih =>
      rw [put]
      split
      · simp only [List.map_cons, List.sum_cons]
        omega
      · simp only [List.map_cons, List.sum_cons]
        omega

theorem readText_weight (expected : Expected) (c : Cursor) :
    Yields (readText expected c) fun p => p.1.utf8ByteSize + p.2.room ≤ c.room := by
  have hadvance := c.room_advance_skipBlank_le
  unfold readText
  simp only
  split
  · exact (Json.readString_weight _).mapError.le_trans hadvance
  · exact readForeign_yields expected _

theorem readTag_room (c : Cursor) : Yields (readTag c) fun p => p.2.room ≤ c.room := by
  refine (readText_weight .tag c).bind fun p hp => ?_
  simp only
  split
  · exact .ok (Nat.le_of_add_left_le hp)
  · exact .error _

theorem readMember_weight (s : Members) (key : String) (c : Cursor) :
    Yields (readMember s key c) fun p => Json.Value.weightOfMembers p.1.members + p.2.room ≤
      Json.Value.weightOfMembers s.members + (key.utf8ByteSize + c.room) := by
  unfold readMember
  split
  · split
    · exact .error _
    · refine (Json.readColon_room c).mapError.bind fun c₁ h₁ => ?_
      refine (readTag_room c₁).bind fun p hp => .ok ?_
      simp only
      omega
  · refine (Json.readColon_room c).mapError.bind fun c₁ h₁ => ?_
    refine (Json.readValue_weight depthInRule c₁).mapError.bind fun p hp => .ok ?_
    simp only [Json.Value.weightOfMembers]
    omega

theorem readObject_weight (c : Cursor) :
    Yields (readObject c) fun p => Json.Value.weightOfMembers p.1.2 + p.2.room ≤ c.room := by
  refine (Json.foldMembers_weight (fun s : Members => Json.Value.weightOfMembers s.members)
    readMember_weight (Json.stepsFrom c) true ⟨none, []⟩ c).mapError.bind fun ⟨s, c₁⟩ hs => ?_
  simp only
  split
  · refine .ok ?_
    have hadvance := c₁.room_advance_le
    simp only [Json.Value.weightOfMembers, Json.Value.weightOfMembers_reverse] at hs ⊢
    omega
  · exact .error _

theorem readElement_weight (vs : List Json.Value) (c : Cursor) :
    Yields (readElement vs c) fun p => Json.Value.weightOfElements p.1 + p.2.room ≤
      Json.Value.weightOfElements vs + c.room := by
  refine (Json.readValue_weight depthInRule c).mapError.bind fun p hp => .ok ?_
  simp only [Json.Value.weightOfElements]
  omega

theorem readArray_weight (c : Cursor) :
    Yields (readArray c) fun p => Json.Value.weightOfElements p.1.2 + p.2.room ≤ c.room := by
  refine (Json.nextElement_room true c).mapError.bind fun ⟨more, c₁⟩ h₁ => ?_
  simp only
  split
  · refine (readTag_room c₁).bind fun ⟨tag, c₂⟩ h₂ => ?_
    refine (Json.foldElements_weight Json.Value.weightOfElements readElement_weight
      (Json.stepsFrom c₂) false [] c₂).bind fun ⟨vs, c₃⟩ h₃ => .ok ?_
    have hadvance := c₃.room_advance_le
    simp only [Json.Value.weightOfElements, Json.Value.weightOfElements_reverse] at h₁ h₂ h₃ ⊢
    omega
  · exact .error _

theorem readRule_weight (c : Cursor) :
    Yields (readRule c) fun p => p.1.weight + p.2.room ≤ c.room := by
  have hblank := c.room_skipBlank_le
  unfold readRule
  simp only
  split
  · rename_i rest hrest
    have hadvance := Cursor.room_advance_lt hrest
    refine (readObject_weight _).bind fun ⟨⟨tag, members⟩, c₁⟩ h₁ => ?_
    simp only [pure_bind] at h₁ ⊢
    split
    · rename_i e he
      have hweight : e.weight ≤ 1 + _ := Expression.weight_ofMembers tag none members e he
      refine .ok ?_
      simp only
      omega
    · exact .error _
  · rename_i rest hrest
    have hadvance := Cursor.room_advance_lt hrest
    refine (readArray_weight _).bind fun ⟨⟨tag, fields⟩, c₁⟩ h₁ => ?_
    simp only [pure_bind] at h₁ ⊢
    split
    · rename_i e he
      have hweight : e.weight ≤ 1 + _ := Expression.weight_ofFields tag fields e he
      refine .ok ?_
      simp only
      omega
    · exact .error _
  · exact (readForeign_yields (P := fun _ => False) .expression _).bind fun _ h => h.elim

theorem readRules_weight (c : Cursor) :
    Yields (readRules c) fun p => rulesWeight p.1 + p.2.room ≤ c.room := by
  have hadvance := c.room_advance_skipBlank_le
  unfold readRules
  simp only
  split
  · refine (Json.foldMembers_weight rulesWeight (fun rules name c => ?_)
      (Json.stepsFrom c.skipBlank) true .empty _).mapError.bind fun ⟨rules, c₁⟩ h₁ => .ok ?_
    · refine (Json.readColon_room c).mapError.bind fun c₁ h₁ => ?_
      refine (readRule_weight c₁).bind fun p hp => .ok ?_
      have hinsert := rulesWeight_insert_le rules name p.1
      simp only
      omega
    · have hclose := c₁.room_advance_le
      simp only [rulesWeight, Table.empty, List.map_nil, List.sum_nil] at h₁ ⊢
      omega
  · exact readForeign_yields .table _

def partsWeight (s : Parts) : Nat :=
  s.name.elim 0 String.utf8ByteSize + s.rules.elim 0 rulesWeight

theorem readPart_weight (s : Parts) (key : String) (c : Cursor) :
    Yields (readPart s key c)
      fun p => partsWeight p.1 + p.2.room ≤ partsWeight s + (key.utf8ByteSize + c.room) := by
  unfold readPart
  split
  · split
    · exact .error _
    · refine (Json.readColon_room c).mapError.bind fun c₁ h₁ => ?_
      refine (readText_weight .text c₁).bind fun p hp => .ok ?_
      simp only [partsWeight, Option.elim_some]
      omega
  · split
    · split
      · exact .error _
      · refine (Json.readColon_room c).mapError.bind fun c₁ h₁ => ?_
        refine (readRules_weight c₁).bind fun p hp => .ok ?_
        simp only [partsWeight, Option.elim_some]
        omega
    · refine (Json.readColon_room c).mapError.bind fun c₁ h₁ => ?_
      refine (Json.skipValue_room c₁).mapError.bind fun c₂ h₂ => .ok ?_
      simp only
      omega

theorem readFileObject_weight (c : Cursor) :
    Yields (readFileObject c) fun p => contentsWeight p.1 + p.2.room ≤ c.room := by
  refine (Json.foldMembers_weight partsWeight readPart_weight (Json.stepsFrom c) true ⟨none, none⟩
    c).mapError.bind fun ⟨s, c₁⟩ hs => ?_
  simp only
  split
  · rename_i name rules hname hrules
    have hadvance := c₁.room_advance_le
    refine .ok ?_
    simp only [partsWeight, contentsWeight, hname, hrules, Option.elim_some, Option.elim_none]
      at hs ⊢
    omega
  · exact .error _
  · exact .error _

theorem closeArray_room (c : Cursor) : Yields (closeArray c) fun c' => c'.room ≤ c.room := by
  unfold closeArray
  simp only
  split
  · exact .error _
  · exact .ok c.room_advance_skipBlank_le
  · split <;> exact .error _
  · exact .error _

theorem readFileArray_weight (c : Cursor) :
    Yields (readFileArray c) fun p => contentsWeight p.1 + p.2.room ≤ c.room := by
  refine (Json.nextElement_room true c).mapError.bind fun ⟨more, c₁⟩ h₁ => ?_
  simp only
  split
  · exact .error _
  refine (readText_weight .text c₁).bind fun ⟨name, c₂⟩ h₂ => ?_
  refine (Json.nextElement_room false c₂).mapError.bind fun ⟨more, c₃⟩ h₃ => ?_
  simp only
  split
  · exact .error _
  refine (readRules_weight c₃).bind fun ⟨rules, c₄⟩ h₄ => ?_
  refine (closeArray_room c₄).mapError.bind fun c₅ h₅ => .ok ?_
  simp only [contentsWeight] at h₁ h₂ h₃ h₄ h₅ ⊢
  omega

theorem read_weight (c : Cursor) :
    Yields (read c) fun contents => contentsWeight contents ≤ c.room := by
  have hadvance := c.room_advance_skipBlank_le
  unfold read
  simp only
  split
  · refine (readFileObject_weight _).bind fun p hp => ?_
    refine (Yields.any _).bind fun _ _ => .ok ?_
    omega
  · refine (readFileArray_weight _).bind fun p hp => ?_
    refine (Yields.any _).bind fun _ _ => .ok ?_
    omega
  · exact (readForeign_yields (P := fun _ => False) .grammar _).bind fun _ h => h.elim

end GrammarFile

namespace Grammar

open GrammarFile

theorem fits_ofContents {contents : Contents} (h : contentsWeight contents < countLimit) :
    (ofContents contents).Fits := by
  rw [contentsWeight, rulesWeight] at h
  have hone : ∀ rule ∈ contents.2.entries, 1 ≤ rule.1.utf8ByteSize + rule.2.weight :=
    fun rule _ => Nat.le_trans rule.2.weight_pos (Nat.le_add_left _ _)
  have hrule : ∀ rule ∈ contents.2.entries, rule.1.utf8ByteSize + rule.2.weight < countLimit := by
    intro rule hrule
    have hle : rule.1.utf8ByteSize + rule.2.weight ≤
        (contents.2.entries.map fun rule => rule.1.utf8ByteSize + rule.2.weight).sum :=
      List.le_sum_of_mem (List.mem_map.mpr ⟨rule, hrule, rfl⟩)
    omega
  have hcount : contents.2.entries.length ≤
      (contents.2.entries.map fun rule => rule.1.utf8ByteSize + rule.2.weight).sum := by
    have hle := List.length_le_sum_of_one_le _ (List.forall_mem_map.mpr hone)
    rwa [List.length_map] at hle
  have hmem : ∀ rule ∈ (ofContents contents).rules.entries, ∃ e,
      rule.2 = Expression.body e ∧ rule.1.utf8ByteSize + e.weight < countLimit := by
    intro rule h
    obtain ⟨source, hsource, rfl⟩ := List.mem_map.mp h
    exact ⟨source.2, rfl, hrule source hsource⟩
  refine ⟨?_, ?_, ?_, ?_⟩
  · show contents.1.utf8ByteSize < countLimit
    omega
  · show (contents.2.entries.map _).length < countLimit
    rw [List.length_map]
    omega
  · intro rule h
    obtain ⟨e, -, he⟩ := hmem rule h
    omega
  · intro rule h
    obtain ⟨e, hbody, he⟩ := hmem rule h
    rw [hbody]
    exact Expression.fits_body (by omega)

/-- What is read from a text of less than `2 ^ 64` bytes can be packed. -/
theorem fits_of_ofFileText {text : String} {g : Grammar} (h : ofFileText text = .ok g)
    (hsize : text.utf8ByteSize < countLimit) : g.Fits := by
  unfold ofFileText at h
  split at h
  · rename_i contents hread
    have hweight := read_weight _ contents hread
    rw [Cursor.room_ofText] at hweight
    rw [← Except.ok.inj h]
    exact fits_ofContents (Nat.lt_of_le_of_lt hweight hsize)
  · exact nomatch h

end Grammar
end GrammarRecords
