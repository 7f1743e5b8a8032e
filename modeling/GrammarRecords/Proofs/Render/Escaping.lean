/-
Escaping keeps the numbered candidates for a name apart.

Escaping alone merges words: with `node` reserved, `node` and `node_` are
written alike.  Two candidates for one base differ in their numbers only, and no
escape adds a digit or a minus, so candidates of which one is escaped and the
other is not still differ (`escape_append_injective`).  `separates_escape` is what
the search for a free name needs.
-/
import GrammarRecords.Proofs.Names.Search
import GrammarRecords.Render.Renderer

namespace GrammarRecords
namespace Keywords

/-- The four ways in which a word can be written. -/
theorem escape_cases (dialect : Dialect) (ks : Keywords) (word : String) :
    escape dialect ks word = word ∨
      (dialect = .scala ∧ escape dialect ks word = "`" ++ word ++ "`") ∨
      (isPlainWord word = true ∧ escape dialect ks word = "r#" ++ word ∧ dialect ≠ .scala) ∨
      (dialect ≠ .scala ∧ escape dialect ks word = word ++ "_") := by
  unfold escape
  split
  · cases dialect with
    | generic => exact Or.inr (Or.inr (Or.inr ⟨by decide, rfl⟩))
    | scala => exact Or.inr (Or.inl ⟨rfl, rfl⟩)
    | rust =>
        simp only
        split
        · rename_i h
          exact Or.inr (Or.inr (Or.inl ⟨h.2, rfl, by decide⟩))
        · exact Or.inr (Or.inr (Or.inr ⟨by decide, rfl⟩))
  · exact Or.inl rfl

theorem contains_insertAll (ks : Keywords) (words : List String) (x : String) :
    (ks.insertAll words).contains x = (decide (x ∈ words) || ks.contains x) := by
  induction words generalizing ks with
  | nil => rfl
  | cons word rest ih =>
      have hstep : ks.insertAll (word :: rest) = (ks.insert word).insertAll rest := rfl
      rw [hstep, ih, contains_insert, Bool.eq_iff_iff]
      simp only [Bool.or_eq_true, decide_eq_true_eq, List.mem_cons]
      exact or_left_comm.trans or_assoc.symm

theorem contains_ofList (words : List String) (x : String) :
    (ofList words).contains x = decide (x ∈ words) := by
  unfold ofList
  rw [contains_insertAll]
  exact Bool.or_false _

theorem escape_of_not_contains {dialect : Dialect} {ks : Keywords} {word : String}
    (h : ks.contains word = false) : escape dialect ks word = word := by
  unfold escape
  rw [h]
  exact if_neg Bool.false_ne_true

/-- Quotes are told from words by the backtick that opens them. -/
theorem escape_scala_injective {ks : Keywords} {v w : String} (hv : '`' ∉ v.toList)
    (hw : '`' ∉ w.toList) (h : escape .scala ks v = escape .scala ks w) : v = w := by
  have hcases : ∀ word, escape .scala ks word = word ∨ escape .scala ks word = "`" ++ word ++ "`" := by
    intro word
    unfold escape
    split
    · exact Or.inr rfl
    · exact Or.inl rfl
  have hquote : ∀ word : String, '`' ∈ ("`" ++ word ++ "`").toList := by
    intro word
    rw [String.toList_append, String.toList_append]
    exact List.mem_append_left _ (List.mem_append_left _ (by decide))
  rcases hcases v with ev | ev <;> rcases hcases w with ew | ew <;> rw [ev, ew] at h
  · exact h
  · exact absurd (h ▸ hquote w) hv
  · exact absurd (h ▸ hquote v) hw
  · exact (String.append_right_inj "`").mp ((String.append_left_inj "`").mp h)

theorem mem_of_isPlainWord {word : String} (h : isPlainWord word = true) {c : Char}
    (hc : c ∈ word.toList) : (c.isAlphanum || c == '_') = true := by
  unfold isPlainWord at h
  split at h
  · exact absurd h Bool.false_ne_true
  · rename_i d ds hd
    rw [Bool.and_eq_true] at h
    rw [hd] at hc
    rcases List.mem_cons.mp hc with rfl | hc
    · have hfirst := h.1
      simp only [Char.isAlphanum, Bool.or_eq_true] at hfirst ⊢
      rcases hfirst with hletter | hline
      · exact Or.inl (Or.inl hletter)
      · exact Or.inr hline
    · exact List.all_eq_true.mp h.2 c hc

end Keywords

namespace Names

open Keywords

theorem toList_numbered (base : String) (n : Nat) :
    (numbered base n).toList = base.toList ++ (suffix n).toList := by
  rw [numbered_eq, String.toList_append]

theorem not_mem_suffix {c : Char} (hc : c.isDigit = false) (n : Nat) : c ∉ (suffix n).toList := by
  intro h
  rw [isDigit_of_mem_suffix h] at hc
  exact Bool.noConfusion hc

/-- A suffix adds a digit, so a text without digits is a candidate only for itself. -/
theorem numbered_eq_iff_of_no_digit {base text : String} {n : Nat}
    (htext : ∀ c ∈ text.toList, c.isDigit = false) :
    numbered base n = text ↔ base = text ∧ n = 0 := by
  cases n with
  | zero => exact (and_iff_left rfl).symm
  | succ n =>
      refine iff_of_false (fun h => ?_) (fun h => Nat.succ_ne_zero n h.2)
      obtain ⟨c, hc⟩ := List.exists_mem_of_ne_nil (suffix (n + 1)).toList fun hnil =>
        toString_nat_ne_empty (n + 1) (String.toList_eq_nil_iff.mp hnil)
      have hdigit : c.isDigit = false := by
        refine htext c ?_
        rw [← h, toList_numbered]
        exact List.mem_append_right _ hc
      exact not_mem_suffix hdigit (n + 1) hc

/-! ## What an escape adds -/

/-- A text without the marks that escapes add. -/
def Unmarked (text : String) : Prop :=
  ∀ c ∈ text.toList, c ≠ '`' ∧ c ≠ '_' ∧ c ≠ '#'

theorem unmarked_of_minus_or_digit {text : String}
    (h : ∀ c ∈ text.toList, c = '-' ∨ c.isDigit = true) : Unmarked text := by
  intro c hc
  refine ⟨?_, ?_, ?_⟩ <;> rintro rfl <;> exact absurd (h _ hc) (by decide)

theorem unmarked_suffix (n : Nat) : Unmarked (suffix n) :=
  unmarked_of_minus_or_digit fun _ hc => Or.inr (isDigit_of_mem_suffix hc)

section Marks

variable {base s t : String} (hs : Unmarked s)

include hs

/-- Quotes would need a text that ends in one, or one longer than itself. -/
theorem append_ne_quoted : base ++ s ≠ "`" ++ (base ++ t) ++ "`" := by
  intro h
  have hl : base.toList ++ s.toList = '`' :: (base.toList ++ t.toList) ++ ['`'] := by
    have hl := congrArg String.toList h
    simp only [String.toList_append] at hl
    exact hl
  rcases List.eq_nil_or_concat s.toList with hnil | ⟨front, last, hlast⟩
  · have hlen := congrArg List.length hl
    rw [hnil] at hlen
    simp only [List.length_append, List.length_cons, List.length_nil] at hlen
    omega
  · have hquote : last = '`' := by
      rw [hlast, List.concat_eq_append, ← List.append_assoc] at hl
      exact List.singleton_inj.mp (List.append_inj_right' hl rfl)
    have hmem : '`' ∈ s.toList := by
      rw [hlast, hquote, List.concat_eq_append]
      exact List.mem_append_right front (List.mem_singleton_self '`')
    exact (hs '`' hmem).1 rfl

/-- What is put behind the base does not end in an underscore. -/
theorem append_ne_underscored : base ++ s ≠ base ++ t ++ "_" := by
  intro h
  have hl := congrArg String.toList h
  simp only [String.toList_append, List.append_assoc] at hl
  have hsuffix : s.toList = t.toList ++ ['_'] := List.append_cancel_left hl
  have hmem : '_' ∈ s.toList := by
    rw [hsuffix]
    exact List.mem_append_right _ (List.mem_singleton_self '_')
  exact (hs '_' hmem).2.1 rfl

/-- If the base is that of a plain word, the mark of raw identifiers is in no text for it. -/
theorem hash_not_mem_append (h : isPlainWord (base ++ t) = true) : '#' ∉ (base ++ s).toList := by
  intro hmem
  rw [String.toList_append] at hmem
  rcases List.mem_append.mp hmem with hbase | hsuffix
  · have hin : '#' ∈ (base ++ t).toList := by
      rw [String.toList_append]
      exact List.mem_append_left _ hbase
    exact absurd (mem_of_isPlainWord h hin) (by decide)
  · exact (hs '#' hsuffix).2.2 rfl

omit hs in
theorem hash_mem_raw (word : String) : '#' ∈ ("r#" ++ word).toList := by
  rw [String.toList_append]
  exact List.mem_append_left _ (by decide)

theorem append_ne_raw (h : isPlainWord (base ++ t) = true) :
    base ++ s ≠ "r#" ++ (base ++ t) := by
  intro e
  have hmem := hash_mem_raw (base ++ t)
  rw [← e] at hmem
  exact hash_not_mem_append hs h hmem

theorem underscored_ne_raw (h : isPlainWord (base ++ t) = true) :
    base ++ s ++ "_" ≠ "r#" ++ (base ++ t) := by
  intro e
  have hmem := hash_mem_raw (base ++ t)
  rw [← e, String.toList_append] at hmem
  rcases List.mem_append.mp hmem with hword | hline
  · exact hash_not_mem_append hs h hword
  · exact absurd hline (by decide)

/-- Texts for one base stay distinct when they are escaped. -/
theorem escape_append_injective (dialect : Dialect) (ks : Keywords) (ht : Unmarked t)
    (h : escape dialect ks (base ++ s) = escape dialect ks (base ++ t)) : s = t := by
  have hcancel : base ++ s = base ++ t → s = t := (String.append_right_inj base).mp
  -- Equal spellings give equal words; unequal spellings are excluded in both orders.
  rcases escape_cases dialect ks (base ++ s) with hi | ⟨di, hi⟩ | ⟨pi, hi, di⟩ | ⟨di, hi⟩ <;>
    rcases escape_cases dialect ks (base ++ t) with
      hj | ⟨dj, hj⟩ | ⟨pj, hj, dj⟩ | ⟨dj, hj⟩ <;>
    rw [hi, hj] at h
  · exact hcancel h
  · exact absurd h (append_ne_quoted hs)
  · exact absurd h (append_ne_raw hs pj)
  · exact absurd h (append_ne_underscored hs)
  · exact absurd h.symm (append_ne_quoted ht)
  · exact hcancel ((String.append_right_inj "`").mp ((String.append_left_inj "`").mp h))
  · exact absurd di dj
  · exact absurd di dj
  · exact absurd h.symm (append_ne_raw ht pi)
  · exact absurd dj di
  · exact hcancel ((String.append_right_inj "r#").mp h)
  · exact absurd h.symm (underscored_ne_raw ht pi)
  · exact absurd h.symm (append_ne_underscored ht)
  · exact absurd dj di
  · exact absurd h (underscored_ne_raw hs pj)
  · exact hcancel ((String.append_left_inj "_").mp h)

end Marks

/-- The candidates for one base stay distinct when they are escaped. -/
theorem separates_keywords (dialect : Dialect) (ks : Keywords) :
    Separates (Keywords.escape dialect ks) := by
  intro base i j h
  rw [numbered_eq, numbered_eq] at h
  exact suffix_injective
    (escape_append_injective (unmarked_suffix i) dialect ks (unmarked_suffix j) h)

end Names

theorem Renderer.separates_escape (r : Renderer) : Names.Separates r.escape :=
  Names.separates_keywords r.dialect r.config.keywords

end GrammarRecords
