/-
What a word of a command line does.

Apart from the separator and from a word that is awaited as a value, every word
resolves what is pending before anything else, and `step_cases` says so.  Hence
a value that is awaited comes with the next word or not at all.
-/
import GrammarRecords.CommandLine.Scan
import GrammarRecords.Proofs.Outcome

namespace GrammarRecords
namespace CommandLine

/-! ## Words -/

theorem exists_cons_of_classify_letters {word : String} {cs : List Char}
    (h : Word.classify word = .letters cs) : ∃ c rest, cs = c :: rest ∧ c ≠ '-' := by
  unfold Word.classify at h
  split at h
  · cases h
  · split at h <;> cases h
  · rename_i c rest _ hlong _
    cases h
    exact ⟨c, rest, rfl, hlong⟩
  · cases h

theorem classify_letters {c : Char} (h : c ≠ '-') (rest : List Char) :
    Word.classify (String.ofList ('-' :: c :: rest)) = .letters (c :: rest) := by
  unfold Word.classify
  rw [String.toList_ofList]
  split
  · rename_i htext
    exact absurd (List.cons.inj (List.tail_eq_of_cons_eq htext)).1 h
  · rename_i htext
    exact absurd (List.cons.inj (List.tail_eq_of_cons_eq htext)).1 h
  · rename_i htext
    rw [List.tail_eq_of_cons_eq htext]
  · rename_i hother
    exact absurd rfl (hother c rest)

theorem classify_of_verb {word : String} {verb : Verb} (h : Verb.ofName? word = some verb) :
    Word.classify word = .plain := by
  have hname : verb.name = word := by
    simpa using List.find?_some h
  rw [← hname]
  cases verb <;> decide

/-! ## What is pending -/

namespace Choices

theorem isSome_once {α : Type} (before value : Option α) :
    Yields (once before value) fun after => after.isSome = true := by
  unfold once
  split
  · exact .error _
  · split
    · exact .error _
    · rename_i hvalue
      exact .ok (by simpa [Option.isSome_iff_ne_none] using hvalue)

theorem isSome_grammar_set (c : Choices) (setting : Setting) (value : String) :
    Yields (c.set setting value) fun d =>
      d.grammar.isSome = (c.grammar.isSome || decide (setting = .grammar)) := by
  cases setting with
  | grammar =>
      refine (isSome_once c.grammar (pathOfWord? value)).bind fun grammar h => .ok ?_
      simp [h]
  | reserved => exact .ok (by simp)
  | derive => exact .ok (by simp)
  | dialect => exact (Yields.any (once c.dialect _)).bind fun _ _ => .ok (by simp)
  | format => exact (Yields.any (once c.format _)).bind fun _ _ => .ok (by simp)
  | indirection => exact (Yields.any (once c.indirection _)).bind fun _ _ => .ok (by simp)
  | color => exact (Yields.any (once c.color _)).bind fun _ _ => .ok (by simp)
  | output => exact (Yields.any (once c.output _)).bind fun _ _ => .ok (by simp)

end Choices

namespace Scan

theorem resolve_settled (s : Scan) :
    Yields s.resolve fun r =>
      r.pending = none ∧ r.pathsOnly = s.pathsOnly ∧ r.hasPath = s.hasPath := by
  unfold resolve
  split
  · exact .ok ⟨‹_›, rfl, rfl⟩
  · exact .error _
  · rename_i setting value hpending
    refine (Choices.isSome_grammar_set s.choices setting value).bind fun c hc => .ok ⟨rfl, rfl, ?_⟩
    simp [hasPath, hpending, hc]

theorem resolve_of_pending {s : Scan} (h : s.pending = none) : s.resolve = .ok s := by
  rw [resolve, h]

theorem resolve_of_awaiting {s : Scan} {setting : Setting} (h : s.pending = some (setting, none))
    (r : Scan) : s.resolve ≠ .ok r := by
  rw [resolve, h]
  exact fun he => nomatch he

/-- Behind the separator the same is pending. -/
def separated (s : Scan) : Scan := { s with pathsOnly := true }

theorem resolve_separated (s : Scan) : s.separated.resolve = s.resolve.map separated := by
  obtain ⟨choices, pending, pathsOnly⟩ := s
  match pending with
  | none => rfl
  | some (_, none) => rfl
  | some (setting, some value) =>
      show (choices.set setting value >>= _) = Except.map _ (choices.set setting value >>= _)
      cases choices.set setting value <;> rfl

/-! ## What a word does -/

section

variable {items : List Item} {letter : Char} {setting : Setting}
  (h : findLetter? items letter = some (.setting setting)) (s : Scan)

include h

theorem cluster_await : cluster items s [letter] = s.await setting := by
  rw [cluster, h]

theorem cluster_equals (value : List Char) :
    cluster items s (letter :: '=' :: value) = s.setAttached setting (String.ofList value) := by
  simp only [cluster, h]

theorem cluster_attached {d : Char} (hd : d ≠ '=') (rest : List Char) :
    cluster items s (letter :: d :: rest) = s.setAttached setting (String.ofList (d :: rest)) := by
  simp only [cluster, h]
  split
  · rename_i htext
    exact nomatch htext
  · rename_i htext
    exact absurd (List.cons.inj htext).1 hd
  · rfl

end

/-- A setting in a cluster takes what is behind its letter, or the next word. -/
theorem cluster_setting {items : List Item} {c : Char} {setting : Setting}
    (h : findLetter? items c = some (.setting setting)) (rest : List Char) :
    (rest = [] ∧ ∀ s, cluster items s (c :: rest) = s.await setting) ∨
      (rest ≠ [] ∧ ∃ value, ∀ s, cluster items s (c :: rest) = s.setAttached setting value) := by
  cases rest with
  | nil => exact .inl ⟨rfl, cluster_await h⟩
  | cons d rest =>
      refine .inr ⟨List.cons_ne_nil d rest, ?_⟩
      by_cases hd : d = '='
      · rw [hd]
        exact ⟨_, fun s => cluster_equals h s rest⟩
      · exact ⟨_, fun s => cluster_attached h s hd rest⟩

theorem cluster_switch {items : List Item} {c : Char} {switch : Switch}
    (h : findLetter? items c = some (.switch switch)) (s : Scan) (rest : List Char) :
    cluster items s (c :: rest) = s.turnOn switch >>= fun t => cluster items t rest := by
  rw [cluster, h]

section

variable {items : List Item} {s t : Scan} {word : String} (hpaths : s.pathsOnly = false)

include hpaths

theorem step_separator (h : Word.classify word = .separator) :
    s.step items word = .ok s.separated := by
  rw [step, hpaths, h]
  rfl

theorem step_letters {cs : List Char} (h : Word.classify word = .letters cs) :
    s.step items word = cluster items s cs := by
  rw [step, hpaths, h]
  rfl

theorem step_long_switch {name : String} {switch : Switch}
    (h : Word.classify word = .long name none)
    (hfind : findLong? items name = some (.switch switch)) :
    s.step items word = s.turnOn switch := by
  simp [step, hpaths, h, hfind]

theorem step_long_await {name : String} {setting : Setting}
    (h : Word.classify word = .long name none)
    (hfind : findLong? items name = some (.setting setting)) :
    s.step items word = s.await setting := by
  simp [step, hpaths, h, hfind]

theorem step_long_attached {name value : String} {setting : Setting}
    (h : Word.classify word = .long name (some value))
    (hfind : findLong? items name = some (.setting setting)) :
    s.step items word = s.setAttached setting value := by
  simp [step, hpaths, h, hfind]

theorem step_value {setting : Setting} (h : Word.classify word = .plain)
    (hpending : s.pending = some (setting, none)) :
    s.step items word = .ok { s with pending := some (setting, some word) } := by
  simp [step, hpaths, h, hpending]

theorem step_path (h : Word.classify word = .plain)
    (hnone : ∀ setting, s.pending ≠ some (setting, none)) : s.step items word = s.path word := by
  simp [step, hpaths, h]

end

/-- Where a path is read, no value is awaited. -/
theorem not_awaiting_of_path {s t : Scan} {word : String} (h : s.path word = .ok t)
    (setting : Setting) : s.pending ≠ some (setting, none) := by
  intro hpending
  simp only [path, resolve, hpending] at h
  split at h <;> cases h

theorem foldlM_singleton (items : List Item) (s : Scan) (word : String) :
    [word].foldlM (step items) s = s.step items word := by
  simp

/-- The scan could be resolved, and paths are told as before. -/
def Resolves (s : Scan) (result : Except UsageError Scan) : Prop :=
  Yields result fun t => (∃ r, s.resolve = .ok r) ∧ t.pathsOnly = s.pathsOnly

theorem resolves_bind {f : Scan → Except UsageError Scan} (s : Scan)
    (hf : ∀ r, Yields (f r) fun t => t.pathsOnly = r.pathsOnly) :
    Resolves s (s.resolve >>= f) := by
  refine ((Yields.self s.resolve).and s.resolve_settled).bind fun r hr => ?_
  obtain ⟨hresolve, -, hpaths, -⟩ := hr
  exact (hf r).mono fun _ ht => ⟨⟨r, hresolve⟩, ht.trans hpaths⟩

theorem resolves_turnOn (s : Scan) (switch : Switch) : Resolves s (s.turnOn switch) :=
  resolves_bind s fun r => (Yields.any (r.choices.turnOn switch)).bind fun _ _ => .ok rfl

theorem resolves_setAttached (s : Scan) (setting : Setting) (value : String) :
    Resolves s (s.setAttached setting value) :=
  resolves_bind s fun r => (Yields.any (r.choices.set setting value)).bind fun _ _ => .ok rfl

theorem resolves_await (s : Scan) (setting : Setting) : Resolves s (s.await setting) :=
  resolves_bind s fun _ => .ok rfl

theorem resolves_path (s : Scan) (word : String) : Resolves s (s.path word) := by
  unfold path
  split
  · exact .error _
  · exact resolves_bind s fun _ => .ok rfl

theorem resolves_cluster (items : List Item) (s : Scan) (cs : List Char) :
    Yields (cluster items s cs) fun t =>
      (cs ≠ [] → ∃ r, s.resolve = .ok r) ∧ t.pathsOnly = s.pathsOnly := by
  induction cs generalizing s with
  | nil => exact .ok ⟨fun hne => absurd rfl hne, rfl⟩
  | cons c rest ih =>
      cases hfind : findLetter? items c with
      | none =>
          rw [cluster, hfind]
          exact .error _
      | some item =>
          cases item with
          | switch switch =>
              rw [cluster_switch hfind]
              refine (resolves_turnOn s switch).bind fun t ht => ?_
              exact (ih t).mono fun _ hu => ⟨fun _ => ht.1, hu.2.trans ht.2⟩
          | setting setting =>
              rcases cluster_setting hfind rest with ⟨-, hawait⟩ | ⟨-, value, hvalue⟩
              · rw [hawait]
                exact (resolves_await s setting).mono fun _ ht => ⟨fun _ => ht.1, ht.2⟩
              · rw [hvalue]
                exact (resolves_setAttached s setting value).mono fun _ ht => ⟨fun _ => ht.1, ht.2⟩

theorem resolves_long {items : List Item} {s : Scan} (hpaths : s.pathsOnly = false)
    {word name : String} {attached : Option String}
    (hclass : Word.classify word = .long name attached) : Resolves s (s.step items word) := by
  simp only [step, hpaths, hclass, Bool.false_eq_true, if_false]
  split
  · exact .error _
  · exact .error _
  · exact resolves_turnOn s _
  · exact resolves_setAttached s _ _
  · exact resolves_await s _

/-- A word is the separator, or a value, or it resolves what is pending. -/
theorem step_cases {items : List Item} {s t : Scan} {word : String}
    (h : s.step items word = .ok t) :
    (s.pathsOnly = false ∧ Word.classify word = .separator ∧ t = s.separated) ∨
      (s.pathsOnly = false ∧ Word.classify word = .plain ∧ ∃ setting,
        s.pending = some (setting, none) ∧ t = { s with pending := some (setting, some word) }) ∨
      ((∃ r, s.resolve = .ok r) ∧ t.pathsOnly = s.pathsOnly) := by
  by_cases hpaths : s.pathsOnly = true
  · rw [step, if_pos hpaths] at h
    exact .inr (.inr (resolves_path s word t h))
  · rw [Bool.not_eq_true] at hpaths
    cases hclass : Word.classify word with
    | separator =>
        rw [step_separator hpaths hclass] at h
        exact .inl ⟨hpaths, rfl, (Except.ok.inj h).symm⟩
    | long name attached => exact .inr (.inr (resolves_long hpaths hclass t h))
    | letters cs =>
        obtain ⟨c, rest, rfl, -⟩ := exists_cons_of_classify_letters hclass
        rw [step_letters hpaths hclass] at h
        obtain ⟨hr, ht⟩ := resolves_cluster items s (c :: rest) t h
        exact .inr (.inr ⟨hr (List.cons_ne_nil c rest), ht⟩)
    | plain =>
        by_cases hvalue : ∃ setting, s.pending = some (setting, none)
        · obtain ⟨setting, hpending⟩ := hvalue
          rw [step_value hpaths hclass hpending] at h
          exact .inr (.inl ⟨hpaths, rfl, setting, hpending, (Except.ok.inj h).symm⟩)
        · rw [step_path hpaths hclass fun setting hpending => hvalue ⟨setting, hpending⟩] at h
          exact .inr (.inr (resolves_path s word t h))

theorem pathsOnly_step {items : List Item} {s t : Scan} {word : String}
    (hword : Word.classify word ≠ .separator) (h : s.step items word = .ok t) :
    t.pathsOnly = s.pathsOnly := by
  rcases step_cases h with ⟨-, hseparator, -⟩ | ⟨-, -, setting, -, rfl⟩ | ⟨-, hsame⟩
  · exact absurd hseparator hword
  · rfl
  · exact hsame

/-! ## All words behind the verb -/

section

variable {items : List Item} {s : Scan}

def finish (items : List Item) (s : Scan) (words : List String) : Except UsageError Scan := do
  (← words.foldlM (step items) s).resolve

theorem finish_cons (s : Scan) (word : String) (rest : List String) :
    finish items s (word :: rest) = s.step items word >>= fun t => finish items t rest := by
  rw [finish, List.foldlM_cons, bind_assoc]
  rfl

theorem finish_append (s : Scan) (words rest : List String) :
    finish items s (words ++ rest) =
      words.foldlM (step items) s >>= fun t => finish items t rest := by
  rw [finish, List.foldlM_append, bind_assoc]
  rfl

/-- Behind the separator a value that is awaited never comes. -/
theorem finish_of_awaiting {setting : Setting} (hpaths : s.pathsOnly = true)
    (hpending : s.pending = some (setting, none)) (words : List String) (r : Scan) :
    finish items s words ≠ .ok r := by
  cases words with
  | nil => exact resolve_of_awaiting hpending r
  | cons word rest =>
      rw [finish_cons, step, if_pos hpaths]
      cases hpath : s.path word with
      | error e => exact fun he => nomatch he
      | ok t => exact absurd hpending (not_awaiting_of_path hpath setting)

end

end Scan

theorem readChoices_eq (verb : Verb) (words : List String) :
    readChoices verb words = (Scan.finish verb.items .start words).map Scan.choices := by
  unfold readChoices Scan.finish
  cases words.foldlM (Scan.step verb.items) .start with
  | error e => rfl
  | ok s => rfl

theorem readLine_word {word : String} (h : Word.classify word ≠ .plain)
    (h' : Word.classify word ≠ .separator) (s : Scan) (rest : List String) :
    readLine s (word :: rest) = s.step Item.common word >>= fun t => readLine t rest := by
  cases hclass : Word.classify word with
  | plain => exact absurd hclass h
  | separator => exact absurd hclass h'
  | long name attached => simp only [readLine, hclass]
  | letters cs => simp only [readLine, hclass]

end CommandLine
end GrammarRecords
