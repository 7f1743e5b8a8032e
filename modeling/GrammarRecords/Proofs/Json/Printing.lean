/-
JSON texts determine the value that they were printed from.

What is printed is a text of the value: `spells_prettyAt`.  A printed string is
read back by the reader of strings, with any text behind it, so the string and
what follows it are determined.  The first character of a text
tells the sort of the value.  Behind the opening bracket of an array or an object
there is either the closing bracket or a new line, and behind an item either a
comma or a new line, so the items are found one after the other.  The induction
is over a value with an arbitrary text behind it, and the main statement is
`append_prettyAt_inj`.

Numbers are left out: nothing shows where the text of a number ends.
-/
import GrammarRecords.Json.Printer
import GrammarRecords.Proofs.Json.Spelling.Values
import GrammarRecords.Proofs.Literal.CodePoints

namespace GrammarRecords
namespace Json

/-! ## Strings -/

theorem hexText_hex4 {n : Nat} (h : n ≤ 0xffff) : HexText n (Text.hex4 n) := by
  have hdigit : ∀ k, Text.hexValue? (Text.hexDigit (k % 16)) = some (k % 16) :=
    fun k => Literal.hexValue?_hexDigit (Nat.mod_lt k (by decide))
  have hsum : ((n / 4096 % 16 * 16 + n / 256 % 16) * 16 + n / 16 % 16) * 16 + n % 16 = n := by
    omega
  have htext := HexText.mk (hdigit (n / 4096)) (hdigit (n / 256)) (hdigit (n / 16)) (hdigit n)
  rwa [hsum] at htext

/-- A control character stands behind `\u` with its number. -/
theorem escapeText_hex4 {c : Char} (h : c.toNat < 0x20) :
    EscapeText c ('u' :: Text.hex4 c.toNat) := by
  have htrailing : isTrailingSurrogate c.toNat = false := by
    simp only [isTrailingSurrogate, Bool.and_eq_false_iff, decide_eq_false_iff_not]
    omega
  have hleading : isLeadingSurrogate c.toNat = false := by
    simp only [isLeadingSurrogate, Bool.and_eq_false_iff, decide_eq_false_iff_not]
    omega
  have htext := EscapeText.code (hexText_hex4 (n := c.toNat) (by omega)) hleading htrailing
  rwa [Char.ofNat_toNat] at htext

/-- A character stands for itself, behind a backslash, or as a number. -/
theorem escapedChar_cases (c : Char) :
    (escapedChar c = [c] ∧ c ≠ '"' ∧ c ≠ '\\' ∧ isControl c = false) ∨
      (∃ d, escapedChar c = ['\\', d] ∧ shortEscape? d = some c) ∨
      (escapedChar c = '\\' :: 'u' :: Text.hex4 c.toNat ∧ c.toNat < 0x20) := by
  have hof : ∀ {n}, c.toNat = n → c = Char.ofNat n := fun h => by rw [← h, Char.ofNat_toNat]
  generalize htext : escapedChar c = text
  unfold escapedChar at htext
  split_ifs at htext with hquote hbackslash hb hf hn hr ht hsmall <;> subst htext
  · exact .inr (.inl ⟨'"', rfl, by rw [hquote]; decide⟩)
  · exact .inr (.inl ⟨'\\', rfl, by rw [hbackslash]; decide⟩)
  · exact .inr (.inl ⟨'b', rfl, by rw [hof hb]; decide⟩)
  · exact .inr (.inl ⟨'f', rfl, by rw [hof hf]; decide⟩)
  · exact .inr (.inl ⟨'n', rfl, by rw [hof hn]; decide⟩)
  · exact .inr (.inl ⟨'r', rfl, by rw [hof hr]; decide⟩)
  · exact .inr (.inl ⟨'t', rfl, by rw [hof ht]; decide⟩)
  · exact .inr (.inr ⟨rfl, hsmall⟩)
  · exact .inl ⟨rfl, hquote, hbackslash, decide_eq_false hsmall⟩

theorem charsText_escapedChars (cs : List Char) : CharsText cs (escapedChars cs) := by
  induction cs with
  | nil => exact .nil
  | cons c cs ih =>
      rw [escapedChars]
      rcases escapedChar_cases c with ⟨htext, hquote, hbackslash, hcontrol⟩ |
        ⟨d, htext, hshort⟩ | ⟨htext, hsmall⟩
      · rw [htext]
        exact .plain ⟨hquote, hbackslash, hcontrol⟩ ih
      · rw [htext]
        exact .escaped (.short hshort) ih
      · rw [htext]
        exact .escaped (escapeText_hex4 hsmall) ih

theorem toList_stringText_append (s : String) (rest : List Char) :
    (stringText s).toList ++ rest = '"' :: (escapedChars s.toList ++ '"' :: rest) := by
  simp [stringText]

theorem append_stringText_inj {s t : String} {rest rest' : List Char}
    (h : (stringText s).toList ++ rest = (stringText t).toList ++ rest') :
    s = t ∧ rest = rest' := by
  rw [toList_stringText_append, toList_stringText_append] at h
  obtain ⟨q, hs⟩ := finds_readString (charsText_escapedChars s.toList) rest .start
  obtain ⟨q', ht⟩ := finds_readString (charsText_escapedChars t.toList) rest' .start
  rw [List.tail_eq_of_cons_eq h, ht] at hs
  cases hs
  exact ⟨rfl, rfl⟩

/-! ## Items between brackets -/

namespace Value

/-- The line break and comma are those of the printer; an item is a text without them. -/
def bracketed (opening closing : Char) (level : Nat) : List (List Char) → List Char
  | [] => [opening, closing]
  | item :: rest =>
      opening :: ((lineBreak (level + 1)).toList ++ item ++
        (rest.flatMap fun item => ',' :: ((lineBreak (level + 1)).toList ++ item)) ++
        (lineBreak level).toList ++ [closing])

theorem toList_prettyElements (level : Nat) (v : Value) (vs : List Value) :
    (prettyElements level (v :: vs)).toList =
      (lineBreak level).toList ++ (prettyAt level v).toList ++
        (vs.map fun v => (prettyAt level v).toList).flatMap
          fun item => ',' :: ((lineBreak level).toList ++ item) := by
  induction vs generalizing v with
  | nil => simp [prettyElements]
  | cons w vs ih =>
      rw [prettyElements, String.toList_append, ih]
      · simp
      · simp

def memberChars (level : Nat) (m : String × Value) : List Char :=
  (stringText m.1).toList ++ ':' :: ' ' :: (prettyAt level m.2).toList

theorem toList_prettyMembers (level : Nat) (m : String × Value) (ms : List (String × Value)) :
    (prettyMembers level (m :: ms)).toList =
      (lineBreak level).toList ++ memberChars level m ++
        (ms.map (memberChars level)).flatMap
          fun item => ',' :: ((lineBreak level).toList ++ item) := by
  induction ms generalizing m with
  | nil => simp [prettyMembers, memberChars]
  | cons n ms ih =>
      rw [prettyMembers, String.toList_append, ih]
      · simp [memberChars]
      · simp

theorem toList_prettyAt_array (level : Nat) (vs : List Value) :
    (prettyAt level (.array vs)).toList =
      bracketed '[' ']' level (vs.map fun v => (prettyAt (level + 1) v).toList) := by
  cases vs with
  | nil => simp [prettyAt, bracketed]
  | cons v vs => simp [prettyAt, toList_prettyElements, bracketed]

theorem toList_prettyAt_object (level : Nat) (ms : List (String × Value)) :
    (prettyAt level (.object ms)).toList =
      bracketed '\x7b' '\x7d' level (ms.map (memberChars (level + 1))) := by
  cases ms with
  | nil => simp [prettyAt, bracketed]
  | cons m ms => simp [prettyAt, toList_prettyMembers, bracketed]

theorem toList_lineBreak (level : Nat) :
    (lineBreak level).toList = '\n' :: List.replicate (2 * level) ' ' := by
  simp [lineBreak]

section Items

variable {α : Type} {item : α → List Char} {a b : α} {as bs : List α}

/-- A text that starts with an item of both lists determines the item and what is behind it. -/
def ReadableIn (item : α → List Char) (as bs : List α) : Prop :=
  ∀ a ∈ as, ∀ b ∈ bs, ∀ rest rest',
    item a ++ rest = item b ++ rest' → a = b ∧ rest = rest'

theorem ReadableIn.head (h : ReadableIn item (a :: as) (b :: bs)) {rest rest' : List Char}
    (heq : item a ++ rest = item b ++ rest') : a = b ∧ rest = rest' :=
  h a List.mem_cons_self b List.mem_cons_self rest rest' heq

theorem ReadableIn.tail (h : ReadableIn item (a :: as) (b :: bs)) : ReadableIn item as bs :=
  fun a ha b hb => h a (List.mem_cons_of_mem _ ha) b (List.mem_cons_of_mem _ hb)

/-- The items that stand behind commas end where there is no comma. -/
theorem append_flatMap_inj (hread : ReadableIn item as bs) {indent rest rest' : List Char}
    (hrest : rest.head? ≠ some ',') (hrest' : rest'.head? ≠ some ',')
    (h : ((as.map item).flatMap fun text => ',' :: (indent ++ text)) ++ rest =
      ((bs.map item).flatMap fun text => ',' :: (indent ++ text)) ++ rest') :
    as = bs ∧ rest = rest' := by
  induction as generalizing bs with
  | nil =>
      cases bs with
      | nil => exact ⟨rfl, h⟩
      | cons b bs =>
          rw [show rest = _ from h] at hrest
          exact absurd rfl hrest
  | cons a as ih =>
      cases bs with
      | nil =>
          rw [show rest' = _ from h.symm] at hrest'
          exact absurd rfl hrest'
      | cons b bs =>
          simp only [List.map_cons, List.flatMap_cons, List.cons_append, List.append_assoc] at h
          have hitems := List.append_cancel_left (List.tail_eq_of_cons_eq h)
          obtain ⟨rfl, hmore⟩ := hread.head hitems
          obtain ⟨rfl, hends⟩ := ih hread.tail hmore
          exact ⟨rfl, hends⟩

theorem append_bracketed_inj (hread : ReadableIn item as bs) {opening closing : Char}
    (hclosing : closing ≠ '\n') {level : Nat} {rest rest' : List Char}
    (h : bracketed opening closing level (as.map item) ++ rest =
      bracketed opening closing level (bs.map item) ++ rest') :
    as = bs ∧ rest = rest' := by
  -- the character behind the opening bracket tells whether there are items
  cases as with
  | nil =>
      cases bs with
      | nil => exact ⟨rfl, List.append_cancel_left h⟩
      | cons b bs => simp [bracketed, toList_lineBreak, hclosing] at h
  | cons a as =>
      cases bs with
      | nil => simp [bracketed, toList_lineBreak, hclosing.symm] at h
      | cons b bs =>
          simp only [List.map_cons, bracketed, List.cons_append, List.append_assoc] at h
          have hitems := List.append_cancel_left (List.tail_eq_of_cons_eq h)
          obtain ⟨rfl, hmore⟩ := hread.head hitems
          have hend : ∀ text, ((lineBreak level).toList ++ text).head? ≠ some ',' := by
            intro text
            simp [toList_lineBreak]
          obtain ⟨rfl, hends⟩ := append_flatMap_inj hread.tail (hend _) (hend _) hmore
          exact ⟨rfl, by simpa using hends⟩

end Items

/-! ## Values -/

inductive NumberFree : Value → Prop
  | null : NumberFree .null
  | bool (b : Bool) : NumberFree (.bool b)
  | string (s : String) : NumberFree (.string s)
  | array {vs : List Value} (h : ∀ v ∈ vs, NumberFree v) : NumberFree (.array vs)
  | object {ms : List (String × Value)} (h : ∀ m ∈ ms, NumberFree m.2) : NumberFree (.object ms)

/-- The character that tells the sort of a value.  The texts of numbers have several. -/
def initial? : Value → Option Char
  | null => some 'n'
  | bool true => some 't'
  | bool false => some 'f'
  | number _ => none
  | string _ => some '"'
  | array _ => some '['
  | object _ => some '\x7b'

theorem NumberFree.exists_initial {v : Value} (h : v.NumberFree) : ∃ c, v.initial? = some c := by
  cases h with
  | bool b => cases b <;> exact ⟨_, rfl⟩
  | _ => exact ⟨_, rfl⟩

theorem head?_prettyAt {v : Value} {c : Char} (h : v.initial? = some c) (level : Nat)
    (rest : List Char) : ((prettyAt level v).toList ++ rest).head? = some c := by
  cases v with
  | null => simpa [prettyAt, initial?] using h
  | bool b => cases b <;> simpa [prettyAt, initial?] using h
  | number n => cases h
  | string s => simpa [prettyAt, initial?, stringText] using h
  | array vs =>
      rw [toList_prettyAt_array]
      cases vs <;> simpa [bracketed, initial?] using h
  | object ms =>
      rw [toList_prettyAt_object]
      cases ms <;> simpa [bracketed, initial?] using h

theorem eq_null_of_initial {w : Value} (h : w.initial? = some 'n') : w = .null := by
  cases w with
  | null => rfl
  | bool b => cases b <;> cases h
  | _ => cases h

theorem eq_bool_of_initial {w : Value} {b : Bool} (h : w.initial? = (bool b).initial?) :
    w = .bool b := by
  cases w with
  | bool b' =>
      have hsame : b' = b := by
        revert h
        cases b <;> cases b' <;> decide
      rw [hsame]
  | _ => cases b <;> cases h

theorem exists_string_of_initial {w : Value} (h : w.initial? = some '"') : ∃ s, w = .string s := by
  cases w with
  | string s => exact ⟨s, rfl⟩
  | bool b => cases b <;> cases h
  | _ => cases h

theorem exists_array_of_initial {w : Value} (h : w.initial? = some '[') : ∃ vs, w = .array vs := by
  cases w with
  | array vs => exact ⟨vs, rfl⟩
  | bool b => cases b <;> cases h
  | _ => cases h

theorem exists_object_of_initial {w : Value} (h : w.initial? = some '\x7b') :
    ∃ ms, w = .object ms := by
  cases w with
  | object ms => exact ⟨ms, rfl⟩
  | bool b => cases b <;> cases h
  | _ => cases h

theorem initial_of_append {v w : Value} (hv : v.NumberFree) (hw : w.NumberFree) {level : Nat}
    {rest rest' : List Char}
    (h : (prettyAt level v).toList ++ rest = (prettyAt level w).toList ++ rest') :
    w.initial? = v.initial? := by
  obtain ⟨c, hc⟩ := hv.exists_initial
  obtain ⟨d, hd⟩ := hw.exists_initial
  rw [hc, hd, ← head?_prettyAt hc level rest, h, head?_prettyAt hd level rest']

/-- A text determines the value that it starts with, and the text behind that. -/
theorem append_prettyAt_inj {v w : Value} (hv : v.NumberFree) (hw : w.NumberFree) {level : Nat}
    {rest rest' : List Char}
    (h : (prettyAt level v).toList ++ rest = (prettyAt level w).toList ++ rest') :
    v = w ∧ rest = rest' := by
  induction hv generalizing w level rest rest' with
  | null =>
      obtain rfl := eq_null_of_initial (initial_of_append .null hw h)
      exact ⟨rfl, List.append_cancel_left h⟩
  | bool b =>
      obtain rfl := eq_bool_of_initial (initial_of_append (.bool b) hw h)
      exact ⟨rfl, List.append_cancel_left h⟩
  | string s =>
      obtain ⟨t, rfl⟩ := exists_string_of_initial (initial_of_append (.string s) hw h)
      obtain ⟨rfl, hrest⟩ := append_stringText_inj h
      exact ⟨rfl, hrest⟩
  | @array vs hvs ih =>
      obtain ⟨ws, rfl⟩ := exists_array_of_initial (initial_of_append (.array hvs) hw h)
      cases hw with
      | array hws =>
          have hread : ReadableIn (fun v => (prettyAt (level + 1) v).toList) vs ws :=
            fun v hv w hw _ _ heq => ih v hv (hws w hw) heq
          rw [toList_prettyAt_array, toList_prettyAt_array] at h
          obtain ⟨rfl, hrest⟩ := append_bracketed_inj hread (by decide) h
          exact ⟨rfl, hrest⟩
  | @object ms hms ih =>
      obtain ⟨ns, rfl⟩ := exists_object_of_initial (initial_of_append (.object hms) hw h)
      cases hw with
      | object hns =>
          have hread : ReadableIn (memberChars (level + 1)) ms ns := by
            intro ⟨key, v⟩ hm ⟨key', w⟩ hn _ _ heq
            simp only [memberChars, List.append_assoc, List.cons_append] at heq
            obtain ⟨rfl, hcolon⟩ := append_stringText_inj heq
            have hvalue := List.tail_eq_of_cons_eq (List.tail_eq_of_cons_eq hcolon)
            obtain ⟨rfl, hrest⟩ := ih _ hm (hns _ hn) hvalue
            exact ⟨rfl, hrest⟩
          rw [toList_prettyAt_object, toList_prettyAt_object] at h
          obtain ⟨rfl, hrest⟩ := append_bracketed_inj hread (by decide) h
          exact ⟨rfl, hrest⟩

theorem pretty_inj {v w : Value} (hv : v.NumberFree) (hw : w.NumberFree)
    (h : v.pretty = w.pretty) : v = w := by
  have happend : (prettyAt 0 v).toList ++ [] = (prettyAt 0 w).toList ++ [] := by
    rw [show prettyAt 0 v = prettyAt 0 w from h]
  exact (append_prettyAt_inj hv hw happend).1

/-! ## Printed values are spelled -/

theorem blank_lineBreak (level : Nat) : Blank (lineBreak level).toList := by
  intro c hc
  rw [toList_lineBreak, List.mem_cons] at hc
  rcases hc with rfl | hspace
  · rfl
  · rw [List.eq_of_mem_replicate hspace]
    rfl

theorem items_flatMap {α : Type} {Item : α → List Char → Prop} {item : α → List Char} {as : List α}
    (h : ∀ a ∈ as, Item a (item a)) {indent b : List Char} (hindent : Blank indent) (hb : Blank b) :
    Items Item false as
      ((as.map item).flatMap (fun item => ',' :: (indent ++ item)) ++ b) := by
  induction as with
  | nil => exact .done hb
  | cons a as ih =>
      rw [List.forall_mem_cons] at h
      have hitems := Items.more (.comma Blank.nil hindent) h.1 (ih h.2)
      simpa using hitems

theorem items_bracketed {α : Type} {Item : α → List Char → Prop} {item : α → List Char}
    {as : List α} (h : ∀ a ∈ as, Item a (item a)) (opening closing : Char) (level : Nat) :
    ∃ body, bracketed opening closing level (as.map item) = opening :: (body ++ [closing]) ∧
      Items Item true as body := by
  cases as with
  | nil => exact ⟨[], rfl, .done Blank.nil⟩
  | cons a as =>
      rw [List.forall_mem_cons] at h
      refine ⟨_, ?_, .more (.first (blank_lineBreak (level + 1))) h.1
        (items_flatMap h.2 (blank_lineBreak (level + 1)) (blank_lineBreak level))⟩
      simp [bracketed]

theorem stringText_stringText (s : String) : StringText s (stringText s).toList := by
  have htext := toList_stringText_append s []
  rw [List.append_nil] at htext
  rw [htext]
  exact .mk (charsText_escapedChars s.toList)

theorem memberText_memberChars {α : Type} {Item : String → α → List Char → Prop} {key : String}
    {a : α} {v : Value} {level : Nat} (h : Item key a (prettyAt level v).toList) :
    MemberText Item (key, a) (memberChars level (key, v)) := by
  have htext : memberChars level (key, v) = (stringText key).toList ++
      ([] ++ ':' :: ([' '] ++ (prettyAt level v).toList)) := rfl
  rw [htext]
  exact .mk (stringText_stringText key) Blank.nil (List.forall_mem_singleton.mpr rfl) h

theorem spells_prettyAt {v : Value} (h : v.NumberFree) (level : Nat) :
    Spells v (prettyAt level v).toList := by
  induction h generalizing level with
  | null =>
      have htext : (prettyAt level null).toList = ['n', 'u', 'l', 'l'] := by simp [prettyAt]
      exact htext ▸ .null
  | bool b =>
      cases b with
      | false =>
          have htext : (prettyAt level (bool false)).toList = ['f', 'a', 'l', 's', 'e'] := by
            simp [prettyAt]
          exact htext ▸ .false
      | true =>
          have htext : (prettyAt level (bool true)).toList = ['t', 'r', 'u', 'e'] := by
            simp [prettyAt]
          exact htext ▸ .true
  | string s =>
      rw [prettyAt]
      exact .string (stringText_stringText s)
  | @array vs hvs ih =>
      obtain ⟨body, htext, hbody⟩ :=
        items_bracketed (fun v hv => ih v hv (level + 1)) '[' ']' level
      rw [toList_prettyAt_array, htext]
      exact .array hbody
  | @object ms hms ih =>
      have hmember : ∀ m ∈ ms, MemberText (fun _ => Spells) m (memberChars (level + 1) m) :=
        fun m hm => memberText_memberChars (ih m hm (level + 1))
      obtain ⟨body, htext, hbody⟩ := items_bracketed hmember '\x7b' '\x7d' level
      rw [toList_prettyAt_object, htext]
      exact .object hbody

end Value
end Json
end GrammarRecords
