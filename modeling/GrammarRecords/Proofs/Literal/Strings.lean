/-
Grammar literals in target sources.

`Writes chars text` is the target's side: `chars` may stand between double
quotes and is read there as `text`.  The translation of any characters at all,
paired or not, is such a body, for the text that the grammar reads in what the
translation keeps of them (`writes_bodyChars`).  This is the only induction over
the translation; where the literal ends, how its backslashes run and what it is
read as are three facts about `Writes`, and `grammar_literal_translated` puts
them together.
-/
import GrammarRecords.Literal
import Mathlib.Algebra.Ring.Parity

namespace GrammarRecords
namespace Literal

/-! ## Two readings -/

/-- What is meant by a backslash with this letter behind it, where grammar and target agree. -/
def sharedEscape? : Char → Option Char
  | '"' => some '"'
  | 'n' => some '\n'
  | 'r' => some '\r'
  | 't' => some '\t'
  | 'b' => some '\x08'
  | 'f' => some '\x0c'
  | '\\' => some '\\'
  | _ => none

/-- In a grammar `\u` is text, and any other backslash only protects what follows it. -/
def grammarEscape (d : Char) : List Char :=
  match sharedEscape? d with
  | some e => [e]
  | none => if d = 'u' then ['\\', 'u'] else [d]

/-- The text of a grammar literal, from what stands between its quotes. -/
def grammarText : List Char → List Char
  | [] => []
  | '\\' :: d :: rest => grammarEscape d ++ grammarText rest
  | c :: rest => c :: grammarText rest

/--
The text of a target literal, from what stands between its quotes.  There is
none if a quote is bare, or a backslash begins anything but a shared escape.
-/
def targetText? : List Char → Option (List Char)
  | [] => some []
  | '\\' :: d :: rest => (sharedEscape? d).bind fun e => (targetText? rest).map (e :: ·)
  | c :: rest => if c = '\\' ∨ c = '"' then none else (targetText? rest).map (c :: ·)

/-- Every backslash has a character to protect. -/
def Paired : List Char → Prop
  | [] => True
  | '\\' :: _ :: rest => Paired rest
  | c :: rest => c ≠ '\\' ∧ Paired rest

/-- The characters before and behind the first quote that no backslash protects. -/
def upToQuote? : List Char → Option (List Char × List Char)
  | [] => none
  | '"' :: rest => some ([], rest)
  | '\\' :: c :: rest => (upToQuote? rest).map fun p => ('\\' :: c :: p.1, p.2)
  | c :: rest => (upToQuote? rest).map fun p => (c :: p.1, p.2)

/-- The length of the run of backslashes at the end. -/
def trailingBackslashes (cs : List Char) : Nat :=
  (cs.reverse.takeWhile (· = '\\')).length

/-! ## Bodies of target literals -/

inductive Writes : List Char → List Char → Prop
  | nil : Writes [] []
  | plain {c : Char} {chars text : List Char} :
      c ≠ '\\' → c ≠ '"' → Writes chars text → Writes (c :: chars) (c :: text)
  | escape {d e : Char} {chars text : List Char} :
      sharedEscape? d = some e → Writes chars text → Writes ('\\' :: d :: chars) (e :: text)

theorem escapeLead_eq (d : Char) :
    escapeLead d =
      if (sharedEscape? d).isSome then ['\\'] else if d = 'u' then ['\\', '\\'] else [] := by
  have hmem : d ∈ ['"', 'n', 'r', 't', 'b', 'f', '\\'] ↔ (sharedEscape? d).isSome = true := by
    unfold sharedEscape?
    split <;> simp_all
  unfold escapeLead
  simp only [hmem]

/-- A backslash of the grammar with the character behind it. -/
theorem writes_escape (d : Char) {chars text : List Char} (h : Writes chars text) :
    Writes (escapeLead d ++ d :: chars) (grammarEscape d ++ text) := by
  rw [escapeLead_eq]
  unfold grammarEscape
  cases hd : sharedEscape? d with
  | some e => exact .escape hd h
  | none =>
      simp only [Option.isSome_none, Bool.false_eq_true, if_false]
      by_cases hu : d = 'u'
      · subst hu
        exact .escape (d := '\\') rfl (.plain (by decide) (by decide) h)
      · have hslash : d ≠ '\\' := by
          rintro rfl
          exact absurd hd (by decide)
        have hquote : d ≠ '"' := by
          rintro rfl
          exact absurd hd (by decide)
        rw [if_neg hu, if_neg hu]
        exact .plain hslash hquote h

/-! ## The translation -/

/-- What the translation keeps: all but the last character, unless a backslash protects it. -/
def contents : List Char → List Char
  | [] => []
  | [_] => []
  | c :: d :: rest => if c = '\\' then c :: d :: contents rest else c :: contents (d :: rest)

theorem grammarText_cons {c : Char} (h : c ≠ '\\') (rest : List Char) :
    grammarText (c :: rest) = c :: grammarText rest := by
  rw [grammarText]
  rintro d rest' rfl
  exact absurd rfl h

theorem writes_bodyChars (cs : List Char) : Writes (bodyChars cs) (grammarText (contents cs)) := by
  fun_induction bodyChars cs with
  | case1 => exact .nil
  | case2 c => exact .nil
  | case3 d rest ih =>
      have hcontents : contents ('\\' :: d :: rest) = '\\' :: d :: contents rest := by
        rw [contents, if_pos rfl]
      rw [hcontents, grammarText]
      exact writes_escape d ih
  | case4 d rest hslash ih =>
      have hcontents : contents ('"' :: d :: rest) = '"' :: contents (d :: rest) := by
        rw [contents, if_neg hslash]
      rw [hcontents, grammarText_cons hslash]
      exact .escape rfl ih
  | case5 c d rest hslash hquote ih =>
      have hcontents : contents (c :: d :: rest) = c :: contents (d :: rest) := by
        rw [contents, if_neg hslash]
      rw [hcontents, grammarText_cons hslash]
      exact .plain hslash hquote ih

/-- The closing quote is what the translation drops, if nothing before it is left unpaired. -/
theorem contents_append_closing {body : List Char} (h : Paired body) (closing : Char) :
    contents (body ++ [closing]) = body := by
  fun_induction Paired body with
  | case1 => rfl
  | case2 d rest ih =>
      rw [List.cons_append, List.cons_append, contents, if_pos rfl, ih h]
  | case3 c rest _ ih =>
      obtain ⟨hslash, hrest⟩ := h
      have hstep : contents (c :: (rest ++ [closing])) = c :: contents (rest ++ [closing]) := by
        cases rest with
        | nil => exact if_neg hslash
        | cons d rest => rw [List.cons_append, contents, if_neg hslash]
      rw [List.cons_append, hstep, ih hrest]

/-! ## The end of a literal -/

/-- Between quotes a body ends nowhere else, whatever comes behind. -/
theorem Writes.upToQuote? {chars text : List Char} (h : Writes chars text) (rest : List Char) :
    upToQuote? (chars ++ '"' :: rest) = some (chars, rest) := by
  induction h with
  | nil => rfl
  | @plain c chars text hslash hquote _ ih =>
      rw [List.cons_append, Literal.upToQuote?, ih]
      · rfl
      · exact hquote
      · rintro d rest' rfl
        exact absurd rfl hslash
  | escape _ _ ih =>
      rw [List.cons_append, List.cons_append, Literal.upToQuote?, ih]
      rfl

/-! ## Runs of backslashes -/

theorem trailingBackslashes_le (cs : List Char) : trailingBackslashes cs ≤ cs.length := by
  have hle : (cs.reverse.takeWhile (· = '\\')).length ≤ cs.reverse.length :=
    (List.takeWhile_sublist _).length_le
  rw [List.length_reverse] at hle
  exact hle

theorem trailingBackslashes_cons (c : Char) (cs : List Char) :
    trailingBackslashes (c :: cs) =
      if trailingBackslashes cs = cs.length ∧ c = '\\' then trailingBackslashes cs + 1
      else trailingBackslashes cs := by
  unfold trailingBackslashes
  rw [List.reverse_cons, List.takeWhile_append, List.length_reverse]
  by_cases hall : (cs.reverse.takeWhile (· = '\\')).length = cs.length
  · by_cases hc : c = '\\' <;> simp [hall, hc]
  · simp [hall]

/-- An escape before a run lengthens it by two characters or not at all. -/
theorem even_trailingBackslashes_escape {cs : List Char} (h : Even (trailingBackslashes cs))
    (d : Char) : Even (trailingBackslashes ('\\' :: d :: cs)) := by
  have hle := trailingBackslashes_le cs
  rw [trailingBackslashes_cons, trailingBackslashes_cons d, List.length_cons]
  by_cases hd : trailingBackslashes cs = cs.length ∧ d = '\\'
  · rw [if_pos hd, if_pos ⟨by omega, rfl⟩]
    exact h.add even_two
  · rw [if_neg hd, if_neg (by omega)]
    exact h

/-- No escape has the letter `u`, so a `u` stands behind whole escapes only. -/
theorem Writes.even_trailingBackslashes {chars text : List Char} (h : Writes chars text) :
    ∀ {front back : List Char}, chars = front ++ 'u' :: back →
      Even (trailingBackslashes front) := by
  induction h with
  | nil =>
      intro front back he
      exact absurd he.symm (by simp)
  | @plain c chars text hslash _ _ ih =>
      intro front back he
      cases front with
      | nil => exact Even.zero
      | cons x front =>
          rw [List.cons_append, List.cons.injEq] at he
          rw [trailingBackslashes_cons, if_neg (fun hx => hslash (he.1.trans hx.2))]
          exact ih he.2
  | @escape d e chars text hd _ ih =>
      intro front back he
      match front with
      | [] => exact absurd (List.cons.inj he).1 (by decide)
      | [x] =>
          have hu : d = 'u' := (List.cons.inj (List.cons.inj he).2).1
          rw [hu] at hd
          cases hd
      | x :: y :: front =>
          simp only [List.cons_append, List.cons.injEq] at he
          obtain ⟨rfl, rfl, hrest⟩ := he
          exact even_trailingBackslashes_escape (ih hrest) d

/-! ## The text of a literal -/

theorem Writes.targetText? {chars text : List Char} (h : Writes chars text) :
    targetText? chars = some text := by
  induction h with
  | nil => rfl
  | @plain c chars text hslash hquote _ ih =>
      rw [Literal.targetText?, if_neg (not_or.mpr ⟨hslash, hquote⟩), ih]
      · rfl
      · rintro d rest' rfl
        exact absurd rfl hslash
  | escape hd _ ih =>
      rw [Literal.targetText?, hd, ih]
      rfl

theorem toList_ofGrammarLiteral (literal : String) :
    (ofGrammarLiteral literal false).toList = bodyChars (literal.toList.drop 1) ∧
      (ofGrammarLiteral literal true).toList =
        '"' :: (bodyChars (literal.toList.drop 1) ++ ['"']) :=
  ⟨String.toList_ofList, String.toList_ofList⟩

/--
Whatever is translated, the quoted result ends at its first unprotected quote
and has no `\u` that the target would take for an escape.  A grammar literal
with nothing unpaired in it is read by the target as the grammar reads it.
-/
theorem grammar_literal_translated (literal : String) :
    (∃ rest, (ofGrammarLiteral literal true).toList = '"' :: rest ∧
      upToQuote? rest = some ((ofGrammarLiteral literal false).toList, [])) ∧
    (∀ front back, (ofGrammarLiteral literal false).toList = front ++ 'u' :: back →
      Even (trailingBackslashes front)) ∧
    (∀ opening body closing, literal.toList = opening :: (body ++ [closing]) → Paired body →
      targetText? (ofGrammarLiteral literal false).toList = some (grammarText body)) := by
  obtain ⟨hbare, hquoted⟩ := toList_ofGrammarLiteral literal
  have hwrites := writes_bodyChars (literal.toList.drop 1)
  rw [hbare]
  refine ⟨⟨_, hquoted, hwrites.upToQuote? []⟩, fun _ _ he => hwrites.even_trailingBackslashes he, ?_⟩
  intro opening body closing he hpaired
  have hcontents : contents (literal.toList.drop 1) = body := by
    rw [he]
    exact contents_append_closing hpaired closing
  rw [hwrites.targetText?, hcontents]

/-- The body is `\u"\-\\`: an escape that the target lacks, a bare quote, a needless backslash. -/
theorem grammar_literal_translated_unicode :
    Paired ['\\', 'u', '"', '\\', '-', '\\', '\\'] ∧
      (ofGrammarLiteral "'\\u\"\\-\\\\'" false).toList =
        ['\\', '\\', 'u', '\\', '"', '-', '\\', '\\'] ∧
      Even (trailingBackslashes ['\\', '\\']) ∧
      targetText? (ofGrammarLiteral "'\\u\"\\-\\\\'" false).toList =
        some ['\\', 'u', '"', '-', '\\'] := by
  have hpaired : Paired ['\\', 'u', '"', '\\', '-', '\\', '\\'] := by simp [Paired]
  have hchars : (ofGrammarLiteral "'\\u\"\\-\\\\'" false).toList =
      ['\\', '\\', 'u', '\\', '"', '-', '\\', '\\'] := by decide +kernel
  obtain ⟨-, hruns, htext⟩ := grammar_literal_translated "'\\u\"\\-\\\\'"
  exact ⟨hpaired, hchars, hruns _ _ hchars, htext '\'' _ '\'' (by decide +kernel) hpaired⟩

end Literal
end GrammarRecords
