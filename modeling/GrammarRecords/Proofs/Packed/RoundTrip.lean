/-
Unpacking a packed grammar.

A grammar whose texts and lists are short enough for their lengths to be
written is read back as it is, with its rules and children in their order and
whatever follows it: `unpack_pack`.  Trees are read with a bound on their depth
that is taken from the bytes at hand.  A tree is written in more bytes than any
of its children, so a bound on the bytes of a tree is one for its children too,
and the induction runs over the tree with this bound.
-/
import GrammarRecords.Grammar.Packed
import GrammarRecords.Proofs.Packed.Fields
import GrammarRecords.Proofs.Table

namespace GrammarRecords

open Packed

/-! ## What can be written -/

namespace Node

mutual

/-- Every length in the tree has room in its field. -/
def Fits : Node → Prop
  | .mk _ text children =>
      (∀ s, text = some s → s.utf8ByteSize < countLimit) ∧ children.length < countLimit ∧
        AllFit children

def AllFit : List Node → Prop
  | [] => True
  | n :: rest => Fits n ∧ AllFit rest

end

theorem readsBack_kind (k : NodeKind) : ReadsBack (fun k => number k.tag) readKind k := by
  intro rest
  have htag : k.tag < tagLimit := by cases k <;> decide
  rw [readKind, readsBack_tag htag, ok_bind]
  simp only
  rw [NodeKind.ofTag?_tag]
  rfl

theorem length_packed (k : NodeKind) (text : Option String) (children : List Node) :
    (packedAll children).length < (packed (.mk k text children)).length := by
  have htag : 0 < (number k.tag).length := by
    have h : number k.tag = [UInt8.ofNat k.tag] := number_small (by cases k <;> decide)
    rw [h]
    exact Nat.one_pos
  rw [packed, List.length_append, List.length_append, List.length_append]
  omega

mutual

theorem readsBack_node : ∀ {n : Node}, n.Fits → ∀ {depth : Nat}, (packed n).length < depth →
    ReadsBack packed (readPacked depth) n
  | .mk kind text children, ⟨htext, hcount, hall⟩, 0, hdepth, _ => absurd hdepth (Nat.not_lt_zero _)
  | .mk kind text children, ⟨htext, hcount, hall⟩, depth + 1, hdepth, rest => by
      have hchildren : (packedAll children).length < depth :=
        Nat.lt_of_lt_of_le (length_packed kind text children) (Nat.le_of_lt_succ hdepth)
      have hoption : ReadsBack (option Packed.text) (readOption readText) text :=
        readsBack_option fun s hs => readsBack_text (htext s hs)
      have hitems := readItems_packedAll hall hchildren rest
      rw [packed, List.append_assoc, List.append_assoc, List.append_assoc, readPacked,
        readsBack_kind kind, ok_bind]
      simp only
      rw [hoption, ok_bind]
      simp only
      rw [readList, readsBack_count hcount, ok_bind]
      simp only
      rw [hitems, ok_bind]
      rfl

theorem readItems_packedAll : ∀ {ns : List Node}, AllFit ns → ∀ {depth : Nat},
    (packedAll ns).length < depth → ∀ rest,
      readItems (readPacked depth) ns.length (packedAll ns ++ rest) = .ok (ns, rest)
  | [], _, _, _, _ => rfl
  | n :: ns, ⟨hn, hns⟩, depth, hdepth, rest => by
      rw [packedAll, List.length_append] at hdepth
      have hfirst : ReadsBack packed (readPacked depth) n := readsBack_node hn (by omega)
      have hothers := readItems_packedAll hns (show (packedAll ns).length < depth by omega) rest
      rw [List.length_cons, packedAll, List.append_assoc, readItems, hfirst, ok_bind]
      simp only
      rw [hothers, ok_bind]
      rfl

end

/-- The depth that is taken from the bytes at hand is enough. -/
theorem readsBack_packed {n : Node} (h : n.Fits) :
    ReadsBack packed (fun bs => readPacked (bs.length + 1) bs) n := by
  intro rest
  refine readsBack_node h ?_ rest
  rw [List.length_append]
  omega

end Node

namespace RuleBody

structure Fits (body : RuleBody) : Prop where
  count : body.alternatives.length < countLimit
  nodes : ∀ n, some n ∈ body.alternatives → n.Fits

theorem readsBack_body {body : RuleBody} (h : body.Fits) :
    ReadsBack packed readPacked body := by
  intro rest
  have hlist : ReadsBack (list (option Node.packed))
      (readList (readOption fun bs => Node.readPacked (bs.length + 1) bs)) body.alternatives := by
    refine readsBack_list h.count fun o ho => readsBack_option fun n hn => ?_
    subst hn
    exact Node.readsBack_packed (h.nodes n ho)
  rw [packed, readPacked, hlist, ok_bind]
  rfl

end RuleBody

namespace Grammar

structure Fits (g : Grammar) : Prop where
  name : g.name.utf8ByteSize < countLimit
  count : g.rules.size < countLimit
  ruleNames : ∀ rule ∈ g.rules.entries, rule.1.utf8ByteSize < countLimit
  bodies : ∀ rule ∈ g.rules.entries, rule.2.Fits

theorem readsBack_rule {rule : String × RuleBody} (hname : rule.1.utf8ByteSize < countLimit)
    (hbody : rule.2.Fits) : ReadsBack packedRule readRule rule := by
  intro rest
  rw [packedRule, List.append_assoc, readRule, readsBack_text hname, ok_bind]
  simp only
  rw [RuleBody.readsBack_body hbody, ok_bind]
  rfl

theorem readPayload_rules {name : String} {rules : List (String × RuleBody)}
    (hname : name.utf8ByteSize < countLimit) (hcount : rules.length < countLimit)
    (hrules : ∀ rule ∈ rules, rule.1.utf8ByteSize < countLimit ∧ rule.2.Fits) (rest : Bytes) :
    readPayload (Packed.text name ++ list packedRule rules ++ rest) =
      .ok (⟨name, .ofList rules⟩, rest) := by
  have hlist : ReadsBack (list packedRule) (readList readRule) rules :=
    readsBack_list hcount fun rule hrule =>
      readsBack_rule (hrules rule hrule).1 (hrules rule hrule).2
  rw [List.append_assoc, readPayload, readsBack_text hname, ok_bind]
  simp only
  rw [hlist, ok_bind]
  rfl

/-- The table of rules is built from what was read, and distinct names keep every entry. -/
theorem readsBack_payload {g : Grammar} (h : g.Fits) : ReadsBack payload readPayload g := by
  intro rest
  have hread := readPayload_rules h.name h.count
    (fun rule hrule => ⟨h.ruleNames rule hrule, h.bodies rule hrule⟩) rest
  rwa [Table.ofList_entries] at hread

/-- A packed grammar is read back whatever follows it. -/
theorem unpack_pack {g : Grammar} (h : g.Fits) (junk : Bytes) :
    unpack (g.pack ++ junk) = .ok g := by
  have hmark : (g.pack ++ junk).take mark.length = mark := rfl
  have hrest : (g.pack ++ junk).drop mark.length = formatVersion :: (g.payload ++ junk) := rfl
  rw [unpack, if_pos hmark, hrest]
  simp only
  rw [if_pos trivial, readsBack_payload h junk]

/-- Two rules against the order of their names, one of them with an absent alternative. -/
def branching : Grammar :=
  ((named "g").withRule "b" ⟨[some (.alternative [.ruleReference "a", .terminal "é"]), none]⟩).withRule
    "a" ⟨[]⟩

theorem fits_branching : branching.Fits where
  name := by decide
  count := by decide
  ruleNames := by decide
  bodies := by
    intro rule hrule
    rcases List.mem_cons.mp hrule with rfl | hrule
    · refine ⟨by decide, fun n hn => ?_⟩
      obtain rfl : n = .alternative [.ruleReference "a", .terminal "é"] := by simpa using hn
      have ha : "a".utf8ByteSize < countLimit := by decide
      have he : "é".utf8ByteSize < countLimit := by decide
      simp [Node.alternative, Node.ruleReference, Node.terminal, Node.Fits, Node.AllFit, ha, he]
      decide
    · obtain rfl := List.mem_singleton.mp hrule
      exact ⟨by decide, fun n hn => absurd hn List.not_mem_nil⟩

theorem unpack_pack_branching :
    branching.Fits ∧ unpack (branching.pack ++ [0x53, 0xff]) = .ok branching :=
  ⟨fits_branching, unpack_pack fits_branching [0x53, 0xff]⟩

end Grammar
end GrammarRecords
