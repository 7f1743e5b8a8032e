/-
Types can be read back from their text.

A type starts with a word or with the bracket of a tuple.  The characters of
words are not those that end a type inside another one, so the leading word and
the bracket that follows it are determined by the text, and these determine the
form: constructors have brackets, rules and the scalar have none, and a rule is
not written like the scalar.  From there on the parts are read one after the
other.  Each part is followed by text that ends it, so the induction is over the
type with an arbitrary text behind it, as long as that text ends a type.

The Rust dialect is left out.  It has one word for both kinds of lists.
-/
import GrammarRecords.Proofs.Render.Candidates
import GrammarRecords.Proofs.Render.TypeText
import GrammarRecords.Proofs.Render.Vocabulary

namespace GrammarRecords

/-! ## Words -/

/-- Characters of names and of the quotes around them. -/
def isWordChar (c : Char) : Bool :=
  c.isAlphanum || c == '_' || c == '`'

def IsWord (text : String) : Prop :=
  text ≠ "" ∧ text.toList.all isWordChar = true

instance (text : String) : Decidable (IsWord text) :=
  inferInstanceAs (Decidable (_ ∧ _))

theorem IsWord.isWordChar_of_mem {text : String} (h : IsWord text) :
    ∀ c ∈ text.toList, isWordChar c = true :=
  List.all_eq_true.mp h.2

theorem IsWord.append {v w : String} (hv : IsWord v) (hw : IsWord w) : IsWord (v ++ w) := by
  refine ⟨fun hempty => hv.1 (String.append_eq_empty_iff.mp hempty).1, ?_⟩
  rw [String.toList_append, List.all_append, hv.2, hw.2, Bool.and_true]

theorem IsWord.numbered {base : String} (h : IsWord base) (n : Nat) :
    IsWord (Names.numbered base n) := by
  cases n with
  | zero => exact h
  | succ n =>
      rw [Names.numbered_eq]
      refine h.append ⟨Names.toString_nat_ne_empty (n + 1), List.all_eq_true.mpr fun c hc => ?_⟩
      have hdigit := Names.isDigit_of_mem_suffix hc
      simp [isWordChar, Char.isAlphanum, hdigit]

/-- Outside the Rust dialect an escape adds quotes or an underscore. -/
theorem IsWord.escape {text : String} (h : IsWord text) {d : Dialect} (hd : d ≠ .rust)
    (ks : Keywords) : IsWord (ks.escape d text) := by
  unfold Keywords.escape
  split
  · cases d with
    | generic => exact h.append (by decide)
    | scala => exact (IsWord.append (by decide) h).append (by decide)
    | rust => exact absurd rfl hd
  · exact h

theorem takeWhile_word {word rest : List Char} (hword : ∀ c ∈ word, isWordChar c = true)
    (hrest : ∀ c ∈ rest.head?, isWordChar c = false) :
    (word ++ rest).takeWhile isWordChar = word := by
  have hnone : rest.takeWhile isWordChar = [] := by
    cases rest with
    | nil => rfl
    | cons c cs => exact List.takeWhile_cons_of_neg (by simp [hrest c rfl])
  rw [List.takeWhile_append_of_pos hword, hnone, List.append_nil]

/-- A word is determined by a text in which no character of a word follows it. -/
theorem append_word_inj {v w rest rest' : List Char}
    (hv : ∀ c ∈ v, isWordChar c = true) (hw : ∀ c ∈ w, isWordChar c = true)
    (hrest : ∀ c ∈ rest.head?, isWordChar c = false)
    (hrest' : ∀ c ∈ rest'.head?, isWordChar c = false)
    (h : v ++ rest = w ++ rest') : v = w ∧ rest = rest' := by
  have hwords : v = w := by
    rw [← takeWhile_word hv hrest, h, takeWhile_word hw hrest']
  refine ⟨hwords, ?_⟩
  rw [hwords] at h
  exact List.append_cancel_left h

/-! ## What stands behind a type -/

/-- The characters that end a type inside another one. -/
def stopChars : List Char :=
  [',', '>', ']', ')', ' ']

/-- The text is empty or starts with a character that ends a type. -/
def Stops (text : List Char) : Prop :=
  ∀ c ∈ text.head?, c ∈ stopChars

theorem Stops.nil : Stops [] := by
  intro c hc
  exact absurd hc (by simp)

theorem Stops.not_isWordChar {text : List Char} (h : Stops text) :
    ∀ c ∈ text.head?, isWordChar c = false := by
  intro c hc
  have hmem := h c hc
  simp only [stopChars, List.mem_cons, List.not_mem_nil, or_false] at hmem
  rcases hmem with rfl | rfl | rfl | rfl | rfl <;> decide

/-- The characters that close a tuple.  No part starts with one, and neither is a comma. -/
def tupleEnds : List Char :=
  [')', ' ']

def EndsTuple (text : List Char) : Prop :=
  ∃ c ∈ tupleEnds, text.head? = some c

theorem EndsTuple.stops {text : List Char} (h : EndsTuple text) : Stops text := by
  obtain ⟨first, hmem, hfirst⟩ := h
  intro c hc
  have hsubset : tupleEnds ⊆ stopChars := by simp [tupleEnds, stopChars]
  rw [hfirst] at hc
  exact hsubset (Option.some.inj hc ▸ hmem)

theorem not_endsTuple_cons {c : Char} (hc : c ∉ tupleEnds) (text : List Char) :
    ¬ EndsTuple (c :: text) := by
  rintro ⟨first, hmem, hfirst⟩
  exact hc (Option.some.inj hfirst ▸ hmem)

namespace Dialect

/-- The bracket behind a constructor. -/
def bracket : Dialect → Char
  | scala => '['
  | generic | rust => '<'

theorem toList_openArguments (d : Dialect) : d.openArguments.toList = [d.bracket] := by
  cases d <;> rfl

theorem stops_closeArguments (d : Dialect) (text : List Char) :
    Stops (d.closeArguments.toList ++ text) := by
  cases d <;> simp [Stops, stopChars, closeArguments]

theorem stops_sumSeparator (d : Dialect) (text : List Char) :
    Stops (d.sumSeparator.toList ++ text) := by
  cases d <;> simp [Stops, stopChars, sumSeparator]

theorem endsTuple_closeTuple (d : Dialect) (text : List Char) :
    EndsTuple (d.closeTuple.toList ++ text) := by
  cases d <;> simp [EndsTuple, tupleEnds, closeTuple]

theorem bracket_ne (d : Dialect) : d.bracket ≠ '(' := by
  cases d <;> decide

theorem bracket_not_stop (d : Dialect) :
    d.bracket ∉ stopChars ∧ isWordChar d.bracket = false := by
  cases d <;> decide

theorem isWord_of_mem_typeWords {d : Dialect} {word : String} (h : word ∈ d.typeWords) :
    IsWord word := by
  have hall : ∀ word ∈ d.typeWords, IsWord word := by
    cases d <;> decide
  exact hall word h

theorem sumName_ne_containerName (d : Dialect) (kind : ContainerKind) :
    d.sumName ≠ d.containerName kind := by
  cases d <;> cases kind <;> decide

theorem containerName_injective {d : Dialect} (hd : d ≠ .rust) {kind other : ContainerKind}
    (h : d.containerName kind = d.containerName other) : kind = other := by
  revert hd h
  cases d <;> cases kind <;> cases other <;> decide

end Dialect

/-! ## The form of a type -/

/-- A type without its parts. -/
inductive Form where
  | scalar
  | rule (name : String)
  | tuple
  | sum
  | container (kind : ContainerKind)

namespace BinaryShape

def form : BinaryShape → Form
  | .empty => .scalar
  | .rule name => .rule name
  | .sequence _ => .tuple
  | .sum _ _ => .sum
  | .container kind _ => .container kind

theorem eq_empty_of_form {b : BinaryShape} (h : Form.scalar = b.form) : BinaryShape.empty = b := by
  cases b <;> simp_all [form]

theorem eq_rule_of_form {b : BinaryShape} {name : String} (h : Form.rule name = b.form) :
    BinaryShape.rule name = b := by
  cases b <;> simp_all [form]

theorem exists_sequence_of_form {b : BinaryShape} (h : Form.tuple = b.form) :
    ∃ parts, b = .sequence parts := by
  cases b <;> simp_all [form]

theorem exists_sum_of_form {b : BinaryShape} (h : Form.sum = b.form) :
    ∃ left right, b = .sum left right := by
  cases b <;> simp_all [form]

theorem exists_container_of_form {b : BinaryShape} {kind : ContainerKind}
    (h : Form.container kind = b.form) : ∃ inner, b = .container kind inner := by
  cases b <;> simp_all [form]

end BinaryShape

namespace Form

/-- The word that a type of this form starts with. -/
def word (r : Renderer) : Form → String
  | .scalar => r.dialect.scalar
  | .rule name => r.reference name
  | .tuple => ""
  | .sum => r.dialect.sumName
  | .container kind => r.dialect.containerName kind

/-- The bracket behind that word. -/
def bracket (r : Renderer) : Form → Option Char
  | .scalar | .rule _ => none
  | .tuple => some '('
  | .sum | .container _ => some r.dialect.bracket

end Form

namespace Renderer

/-- The rules of the list are written as words, each in its own way and none like the scalar. -/
structure TellsApart (r : Renderer) (rules : List String) : Prop where
  ne_rust : r.dialect ≠ .rust
  word : ∀ rule ∈ rules, IsWord (r.reference rule)
  ne_scalar : ∀ rule ∈ rules, r.reference rule ≠ r.dialect.scalar
  injective : ∀ a ∈ rules, ∀ b ∈ rules, r.reference a = r.reference b → a = b

/-- The characters of a type. -/
def chars (r : Renderer) (b : BinaryShape) : List Char :=
  (r.write (b.pieces r.dialect)).toList

theorem exists_body (r : Renderer) (b : BinaryShape) : ∃ body,
    r.chars b = (b.form.word r).toList ++ body ∧ body.head? = b.form.bracket r := by
  unfold chars
  cases b with
  | empty => exact ⟨[], by simp [BinaryShape.pieces, BinaryShape.form, Form.word], rfl⟩
  | rule name => exact ⟨[], by simp [BinaryShape.pieces, BinaryShape.form, Form.word], rfl⟩
  | sequence parts =>
      refine ⟨(r.write ((BinaryShape.sequence parts).pieces r.dialect)).toList, rfl, ?_⟩
      rw [BinaryShape.pieces, write_mark, String.toList_append]
      cases r.dialect <;> rfl
  | sum left right =>
      rw [BinaryShape.pieces, write_word, write_mark, String.toList_append, String.toList_append,
        Dialect.toList_openArguments]
      exact ⟨_, rfl, rfl⟩
  | container kind inner =>
      rw [BinaryShape.pieces, write_word, write_mark, String.toList_append, String.toList_append,
        Dialect.toList_openArguments]
      exact ⟨_, rfl, rfl⟩

/-! ## The form is determined by the text -/

section Form

variable {r : Renderer} {rules : List String} (h : r.TellsApart rules)

theorem not_stop_of_mem_bracket {f : Form} {c : Char} (hc : c ∈ f.bracket r) :
    c ∉ stopChars ∧ isWordChar c = false := by
  cases f with
  | scalar => exact absurd hc (by simp [Form.bracket])
  | rule name => exact absurd hc (by simp [Form.bracket])
  | tuple =>
      obtain rfl := Option.some.inj hc
      decide
  | sum =>
      obtain rfl := Option.some.inj hc
      exact r.dialect.bracket_not_stop
  | container kind =>
      obtain rfl := Option.some.inj hc
      exact r.dialect.bracket_not_stop

/-- What follows the word of a type is its bracket or the end of the type. -/
theorem bracket_eq_filter {f : Form} {body rest : List Char} (hbody : body.head? = f.bracket r)
    (hrest : Stops rest) :
    f.bracket r = (body ++ rest).head?.filter (fun c => c ∉ stopChars) ∧
      ∀ c ∈ (body ++ rest).head?, isWordChar c = false := by
  cases body with
  | nil =>
      rw [List.nil_append, ← hbody]
      refine ⟨?_, hrest.not_isWordChar⟩
      cases rest with
      | nil => rfl
      | cons c cs => exact (Option.filter_some_neg (by simpa using hrest c rfl)).symm
  | cons c cs =>
      have hbracket := not_stop_of_mem_bracket (f := f) hbody.symm
      rw [← hbody]
      refine ⟨(Option.filter_some_pos (by simpa using hbracket.1)).symm, ?_⟩
      intro first hfirst
      rw [← Option.some.inj hfirst]
      exact hbracket.2

include h

/-- Every form but that of tuples has a word. -/
theorem word_of_form {b : BinaryShape} (hb : b.references ⊆ rules) :
    (b.form.word r = "" ∧ b.form.bracket r = some '(') ∨ IsWord (b.form.word r) := by
  cases b with
  | empty => exact Or.inr (Dialect.isWord_of_mem_typeWords r.dialect.scalar_mem_typeWords)
  | rule name => exact Or.inr (h.word name (hb (List.mem_singleton_self name)))
  | sequence parts => exact Or.inl ⟨rfl, rfl⟩
  | sum left right =>
      exact Or.inr (Dialect.isWord_of_mem_typeWords r.dialect.sumName_mem_typeWords)
  | container kind inner =>
      exact Or.inr (Dialect.isWord_of_mem_typeWords (r.dialect.containerName_mem_typeWords kind))

theorem isWordChar_of_mem_word {b : BinaryShape} (hb : b.references ⊆ rules) :
    ∀ c ∈ (b.form.word r).toList, isWordChar c = true := by
  rcases word_of_form h hb with ⟨hempty, -⟩ | hword
  · rw [hempty]
    exact fun c hc => absurd hc List.not_mem_nil
  · exact hword.isWordChar_of_mem

/-- A word and the bracket behind it stand for one form. -/
theorem form_eq_of_word {a b : BinaryShape} (ha : a.references ⊆ rules) (hb : b.references ⊆ rules)
    (hword : a.form.word r = b.form.word r) (hbracket : a.form.bracket r = b.form.bracket r) :
    a.form = b.form := by
  have hmem : ∀ name, BinaryShape.references (.rule name) ⊆ rules → name ∈ rules :=
    fun name hname => hname (List.mem_singleton_self name)
  have hround : r.dialect.bracket ≠ '(' := r.dialect.bracket_ne
  -- Leaves have no bracket and a tuple has its own, so words are compared within
  -- the leaves and within the constructors.
  cases a with
  | empty =>
      cases b with
      | empty => rfl
      | rule name => exact absurd hword.symm (h.ne_scalar name (hmem name hb))
      | _ => exact absurd hbracket (Option.some_ne_none _).symm
  | rule name =>
      cases b with
      | empty => exact absurd hword (h.ne_scalar name (hmem name ha))
      | rule other =>
          have he := h.injective name (hmem name ha) other (hmem other hb) hword
          exact congrArg Form.rule he
      | _ => exact absurd hbracket (Option.some_ne_none _).symm
  | sequence parts =>
      cases b with
      | sequence others => rfl
      | empty => exact absurd hbracket (Option.some_ne_none _)
      | rule name => exact absurd hbracket (Option.some_ne_none _)
      | _ => exact absurd (Option.some.inj hbracket).symm hround
  | sum left right =>
      cases b with
      | sum left' right' => rfl
      | container kind inner => exact absurd hword (r.dialect.sumName_ne_containerName kind)
      | sequence parts => exact absurd (Option.some.inj hbracket) hround
      | _ => exact absurd hbracket (Option.some_ne_none _)
  | container kind inner =>
      cases b with
      | sum left right => exact absurd hword.symm (r.dialect.sumName_ne_containerName kind)
      | container other inner' =>
          exact congrArg Form.container (Dialect.containerName_injective h.ne_rust hword)
      | sequence parts => exact absurd (Option.some.inj hbracket) hround
      | _ => exact absurd hbracket (Option.some_ne_none _)

/-- Types of different forms differ, whatever follows them. -/
theorem form_eq_of_chars {a b : BinaryShape} (ha : a.references ⊆ rules)
    (hb : b.references ⊆ rules) {u v : List Char} (hu : Stops u) (hv : Stops v)
    (htext : r.chars a ++ u = r.chars b ++ v) : a.form = b.form := by
  obtain ⟨abody, habody, hahead⟩ := exists_body r a
  obtain ⟨bbody, hbbody, hbhead⟩ := exists_body r b
  obtain ⟨habracket, hanext⟩ := bracket_eq_filter hahead hu
  obtain ⟨hbbracket, hbnext⟩ := bracket_eq_filter hbhead hv
  rw [habody, hbbody, List.append_assoc, List.append_assoc] at htext
  obtain ⟨hword, hrest⟩ := append_word_inj (isWordChar_of_mem_word h ha)
    (isWordChar_of_mem_word h hb) hanext hbnext htext
  refine form_eq_of_word h ha hb (String.toList_inj.mp hword) ?_
  rw [habracket, hbbracket, hrest]

/-- The text of a part does not look like the end of the tuple. -/
theorem not_endsTuple_chars {b : BinaryShape} (hb : b.references ⊆ rules) (text : List Char) :
    ¬ EndsTuple (r.chars b ++ text) := by
  obtain ⟨body, hbody, hhead⟩ := exists_body r b
  rw [hbody, List.append_assoc]
  rcases word_of_form h hb with ⟨hempty, hbracket⟩ | hword
  · obtain ⟨rest, rfl⟩ := List.head?_eq_some_iff.mp (hhead.trans hbracket)
    rw [hempty]
    exact not_endsTuple_cons (by decide) _
  · obtain ⟨c, cs, hlist⟩ := List.exists_cons_of_ne_nil fun hnil =>
      hword.1 (String.toList_eq_nil_iff.mp hnil)
    have hchar : isWordChar c = true := hword.isWordChar_of_mem c (hlist ▸ List.mem_cons_self)
    rw [hlist]
    refine not_endsTuple_cons (fun hmem => ?_) _
    have hstops : Stops (c :: cs ++ (body ++ text)) := EndsTuple.stops ⟨c, hmem, rfl⟩
    rw [hstops.not_isWordChar c rfl] at hchar
    exact Bool.noConfusion hchar

end Form

/-! ## Reading a type -/

/-- The characters of the parts of a tuple. -/
def partChars (r : Renderer) (parts : List BinaryShape) : List Char :=
  (r.write (BinaryShape.partPieces r.dialect parts)).toList

/-- The characters of the parts after the first. -/
def tailChars (r : Renderer) : List BinaryShape → List Char
  | [] => []
  | part :: rest => ',' :: ' ' :: (r.chars part ++ tailChars r rest)

theorem partChars_cons (r : Renderer) (part : BinaryShape) (rest : List BinaryShape) :
    r.partChars (part :: rest) = r.chars part ++ r.tailChars rest := by
  induction rest generalizing part with
  | nil => exact (List.append_nil _).symm
  | cons next rest ih =>
      have hrest : (r.write (BinaryShape.partPieces r.dialect (next :: rest))).toList =
          r.chars next ++ r.tailChars rest := ih next
      rw [partChars, BinaryShape.partPieces_cons, write_append, write_mark, String.toList_append,
        String.toList_append, hrest]
      rfl

theorem chars_sequence (r : Renderer) (parts : List BinaryShape) :
    r.chars (.sequence parts) =
      r.dialect.openTuple.toList ++ (r.partChars parts ++ r.dialect.closeTuple.toList) := by
  simp [chars, partChars, BinaryShape.pieces]

theorem chars_sum (r : Renderer) (left right : BinaryShape) :
    r.chars (.sum left right) =
      (r.dialect.sumName.toList ++ r.dialect.openArguments.toList) ++ (r.chars left ++
        (r.dialect.sumSeparator.toList ++ (r.chars right ++
          r.dialect.closeArguments.toList))) := by
  simp [chars, BinaryShape.pieces]

theorem chars_container (r : Renderer) (kind : ContainerKind) (inner : BinaryShape) :
    r.chars (.container kind inner) =
      ((r.dialect.containerName kind).toList ++ r.dialect.openArguments.toList) ++
        (r.chars inner ++ r.dialect.closeArguments.toList) := by
  simp [chars, BinaryShape.pieces]

theorem stops_tailChars (r : Renderer) (parts : List BinaryShape) {text : List Char}
    (h : EndsTuple text) : Stops (r.tailChars parts ++ text) := by
  cases parts with
  | nil => exact h.stops
  | cons part rest => exact fun c hc => Option.some.inj hc ▸ (by decide : ',' ∈ stopChars)

theorem not_endsTuple_tailChars (r : Renderer) (part : BinaryShape) (parts : List BinaryShape)
    (text : List Char) : ¬ EndsTuple (r.tailChars (part :: parts) ++ text) :=
  not_endsTuple_cons (by decide) _

variable {r : Renderer} {rules : List String}

theorem not_endsTuple_partChars (h : r.TellsApart rules) {part : BinaryShape}
    {parts : List BinaryShape} (hparts : BinaryShape.referencesOfParts (part :: parts) ⊆ rules)
    (text : List Char) : ¬ EndsTuple (r.partChars (part :: parts) ++ text) := by
  rw [partChars_cons, List.append_assoc]
  exact not_endsTuple_chars h (List.append_subset.mp hparts).1 _

mutual

/-- A type and what follows it are determined by the text of both. -/
theorem chars_inj (h : r.TellsApart rules) : ∀ a b : BinaryShape,
    a.references ⊆ rules → b.references ⊆ rules → ∀ {u v : List Char}, Stops u → Stops v →
    r.chars a ++ u = r.chars b ++ v → a = b ∧ u = v
  | .empty, b => by
      intro ha hb u v hu hv htext
      obtain rfl := BinaryShape.eq_empty_of_form (form_eq_of_chars h ha hb hu hv htext)
      exact ⟨rfl, List.append_cancel_left htext⟩
  | .rule name, b => by
      intro ha hb u v hu hv htext
      obtain rfl := BinaryShape.eq_rule_of_form (form_eq_of_chars h ha hb hu hv htext)
      exact ⟨rfl, List.append_cancel_left htext⟩
  | .sequence parts, b => by
      intro ha hb u v hu hv htext
      obtain ⟨others, rfl⟩ :=
        BinaryShape.exists_sequence_of_form (form_eq_of_chars h ha hb hu hv htext)
      simp only [chars_sequence, List.append_assoc] at htext
      obtain ⟨hparts, hclosed⟩ := partChars_inj h parts others ha hb
        (r.dialect.endsTuple_closeTuple u) (r.dialect.endsTuple_closeTuple v)
        (List.append_cancel_left htext)
      exact ⟨congrArg BinaryShape.sequence hparts, List.append_cancel_left hclosed⟩
  | .sum left right, b => by
      intro ha hb u v hu hv htext
      obtain ⟨left', right', rfl⟩ :=
        BinaryShape.exists_sum_of_form (form_eq_of_chars h ha hb hu hv htext)
      obtain ⟨haleft, haright⟩ := List.append_subset.mp ha
      obtain ⟨hbleft, hbright⟩ := List.append_subset.mp hb
      simp only [chars_sum, List.append_assoc] at htext
      obtain ⟨rfl, hbehind⟩ := chars_inj h left left' haleft hbleft
        (r.dialect.stops_sumSeparator _) (r.dialect.stops_sumSeparator _)
        (List.append_cancel_left (List.append_cancel_left htext))
      obtain ⟨rfl, hclosed⟩ := chars_inj h right right' haright hbright
        (r.dialect.stops_closeArguments u) (r.dialect.stops_closeArguments v)
        (List.append_cancel_left hbehind)
      exact ⟨rfl, List.append_cancel_left hclosed⟩
  | .container kind inner, b => by
      intro ha hb u v hu hv htext
      obtain ⟨inner', rfl⟩ :=
        BinaryShape.exists_container_of_form (form_eq_of_chars h ha hb hu hv htext)
      simp only [chars_container, List.append_assoc] at htext
      obtain ⟨rfl, hclosed⟩ := chars_inj h inner inner' ha hb
        (r.dialect.stops_closeArguments u) (r.dialect.stops_closeArguments v)
        (List.append_cancel_left (List.append_cancel_left htext))
      exact ⟨rfl, List.append_cancel_left hclosed⟩

/-- The parts of a tuple are determined by their text and the end of the tuple. -/
theorem partChars_inj (h : r.TellsApart rules) : ∀ parts others : List BinaryShape,
    BinaryShape.referencesOfParts parts ⊆ rules → BinaryShape.referencesOfParts others ⊆ rules →
    ∀ {u v : List Char}, EndsTuple u → EndsTuple v →
    r.partChars parts ++ u = r.partChars others ++ v → parts = others ∧ u = v
  | [], [] => fun _ _ _ _ _ _ htext => ⟨rfl, htext⟩
  | [], other :: others => fun _ hb _ v hu _ htext =>
      absurd (htext ▸ hu) (not_endsTuple_partChars h hb v)
  | part :: parts, [] => fun ha _ u _ _ hv htext =>
      absurd (htext ▸ hv) (not_endsTuple_partChars h ha u)
  | part :: parts, other :: others => by
      intro ha hb u v hu hv htext
      obtain ⟨hpart, hparts⟩ := List.append_subset.mp ha
      obtain ⟨hother, hothers⟩ := List.append_subset.mp hb
      rw [partChars_cons, partChars_cons, List.append_assoc, List.append_assoc] at htext
      obtain ⟨rfl, htail⟩ := chars_inj h part other hpart hother
        (stops_tailChars r parts hu) (stops_tailChars r others hv) htext
      obtain ⟨rfl, hclosed⟩ := tailChars_inj h parts others hparts hothers hu hv htail
      exact ⟨rfl, hclosed⟩

theorem tailChars_inj (h : r.TellsApart rules) : ∀ parts others : List BinaryShape,
    BinaryShape.referencesOfParts parts ⊆ rules → BinaryShape.referencesOfParts others ⊆ rules →
    ∀ {u v : List Char}, EndsTuple u → EndsTuple v →
    r.tailChars parts ++ u = r.tailChars others ++ v → parts = others ∧ u = v
  | [], [] => fun _ _ _ _ _ _ htext => ⟨rfl, htext⟩
  | [], other :: others => fun _ _ _ v hu _ htext =>
      absurd (htext ▸ hu) (not_endsTuple_tailChars r other others v)
  | part :: parts, [] => fun _ _ u _ _ hv htext =>
      absurd (htext ▸ hv) (not_endsTuple_tailChars r part parts u)
  | part :: parts, other :: others => by
      intro ha hb u v hu hv htext
      obtain ⟨hpart, hparts⟩ := List.append_subset.mp ha
      obtain ⟨hother, hothers⟩ := List.append_subset.mp hb
      rw [tailChars, tailChars, List.cons_append, List.cons_append, List.cons_append,
        List.cons_append, List.append_assoc, List.append_assoc] at htext
      obtain ⟨rfl, htail⟩ := chars_inj h part other hpart hother
        (stops_tailChars r parts hu) (stops_tailChars r others hv)
        (List.cons.inj (List.cons.inj htext).2).2
      obtain ⟨rfl, hclosed⟩ := tailChars_inj h parts others hparts hothers hu hv htail
      exact ⟨rfl, hclosed⟩

end

/-! ## Registered rules -/

theorem reference_of_ne_rust (hd : r.dialect ≠ .rust) (rule : String) :
    r.reference rule = r.typeName rule :=
  if_neg fun h => hd h.1

theorem isWord_candidate (hd : r.dialect ≠ .rust) {rule : String} (h : IsWord rule) (n : Nat) :
    IsWord (r.candidate rule n) := by
  rw [candidate, typeBase_of_ne_rust hd]
  exact (h.numbered n).escape hd r.config.keywords

theorem Named.tellsApart {named : List String} (h : r.Named named) (hd : r.dialect ≠ .rust)
    (hrules : ∀ rule ∈ rules, rule ∈ named ∧ IsWord rule ∧ rule ≠ "String") :
    r.TellsApart rules := by
  have hcandidate : ∀ rule ∈ rules, ∃ n, r.reference rule = r.candidate rule n := by
    intro rule hrule
    obtain ⟨n, hn, -⟩ := h.first_free rule (hrules rule hrule).1
    exact ⟨n, (reference_of_ne_rust hd rule).trans hn⟩
  refine ⟨hd, ?_, ?_, ?_⟩
  · intro rule hrule
    obtain ⟨n, hn⟩ := hcandidate rule hrule
    rw [hn]
    exact isWord_candidate hd (hrules rule hrule).2.1 n
  · intro rule hrule hscalar
    obtain ⟨n, hn⟩ := hcandidate rule hrule
    have hbase := typeBase_of_candidate_eq_letters
      (Dialect.isAlpha_of_mem_typeWords r.dialect.scalar_mem_typeWords) (hn.symm.trans hscalar)
    exact (hrules rule hrule).2.2 ((typeBase_of_ne_rust hd rule).symm.trans hbase)
  · intro a ha b hb he
    rw [reference_of_ne_rust hd, reference_of_ne_rust hd] at he
    exact h.injective a (hrules a ha).1 b (hrules b hb).1 he

/--
Outside the Rust dialect, shapes over registered rules have types of the same
text exactly if they have the same binary form.  The rules may be named like
constructors; none may be named like the scalar.
-/
theorem shape_eq_iff_binary {config : RenderConfig} (hd : config.dialect ≠ .rust)
    (batches : List (List String)) {s t : Shape}
    (hs : ∀ rule ∈ s.references, rule ∈ batches.flatten ∧ IsWord rule ∧ rule ≠ "String")
    (ht : ∀ rule ∈ t.references, rule ∈ batches.flatten ∧ IsWord rule ∧ rule ≠ "String") :
    (afterBatches config batches).shape s = (afterBatches config batches).shape t ↔
      s.binary = t.binary := by
  rw [shape_eq_write, shape_eq_write]
  constructor
  · intro htext
    have h : (afterBatches config batches).TellsApart (s.references ++ t.references) := by
      refine (named_afterBatches config batches).tellsApart
        ((dialect_afterBatches config batches).symm ▸ hd) ?_
      intro rule hrule
      exact (List.mem_append.mp hrule).elim (hs rule) (ht rule)
    refine (chars_inj h s.binary t.binary ?_ ?_ Stops.nil Stops.nil ?_).1
    · rw [Shape.references_binary]
      exact List.subset_append_left _ _
    · rw [Shape.references_binary]
      exact List.subset_append_right _ _
    · rw [chars, chars, htext]
  · intro hbinary
    rw [hbinary]

/-- The Scala dialect with one word that is written in quotes. -/
def caseReserved : RenderConfig :=
  (RenderConfig.default.withDialect .scala).withKeywords (.ofList ["case"])

/-- Two rules named like constructors and one named by the reserved word. -/
def constructorRules : List (List String) :=
  [["List", "Either"], ["case", "List"]]

/-- A sum of three options. -/
def flatSum : Shape :=
  .choice [.rule "List", .container .list (.rule "case"), .sequence [.rule "Either", .empty]]

/-- The same with the nesting written out, and a sum of no options for the scalar. -/
def nestedSum : Shape :=
  .choice [.rule "List",
    .choice [.container .list (.choice [.rule "case"]), .sequence [.rule "Either", .choice []]]]

theorem shape_eq_iff_binary_flatSum :
    caseReserved.dialect ≠ .rust ∧
      (∀ rule ∈ flatSum.references,
        rule ∈ constructorRules.flatten ∧ IsWord rule ∧ rule ≠ "String") ∧
      (∀ rule ∈ nestedSum.references,
        rule ∈ constructorRules.flatten ∧ IsWord rule ∧ rule ≠ "String") ∧
      (afterBatches caseReserved constructorRules).shape flatSum =
        "Either[List,Either[List[`case`],( Either, String )]]" ∧
      flatSum.binary = nestedSum.binary := by
  have hflat : ∀ rule ∈ flatSum.references,
      rule ∈ constructorRules.flatten ∧ IsWord rule ∧ rule ≠ "String" := by
    decide +kernel
  have hnested : ∀ rule ∈ nestedSum.references,
      rule ∈ constructorRules.flatten ∧ IsWord rule ∧ rule ≠ "String" := by
    decide +kernel
  have hdialect : caseReserved.dialect ≠ .rust := by decide
  exact ⟨hdialect, hflat, hnested, by decide +kernel,
    (shape_eq_iff_binary hdialect constructorRules hflat hnested).mp (by decide +kernel)⟩

end Renderer
end GrammarRecords
