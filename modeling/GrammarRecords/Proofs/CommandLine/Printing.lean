/-
The command line that prints a text instead of writing it.

`printing` takes the settings for the output and for colors out of a line, each
with its value, and asks for no colors behind the verb.  What is left is read
like the whole line: a word is read by what is pending, and apart from the
settings that were taken out both scans have the same choices once they are
resolved.  The difference is in what is still pending, since a setting that was
taken out resolves the one before it; `Follows` says what the two scans have in
common after every word.  The theorem this file exists for is `read_printing`.
-/
import GrammarRecords.Proofs.CommandLine.Scanning

namespace GrammarRecords
namespace CommandLine

/-! ## Taking settings out of a line -/

/-- Settings that tell where a text goes and whether it is colored there. -/
def Setting.isDelivery : Setting → Bool
  | .color | .output => true
  | _ => false

/-- The letters that are left of a cluster, and whether the next word has to go as well. -/
def keptLetters (items : List Item) : List Char → List Char × Bool
  | [] => ([], false)
  | c :: rest =>
      match findLetter? items c with
      | some (.setting setting) =>
          if setting.isDelivery then ([], rest.isEmpty) else (c :: rest, false)
      | _ => (c :: (keptLetters items rest).1, (keptLetters items rest).2)

/-- What is left of a word, and whether the next word has to go as well. -/
def keptWord (items : List Item) (word : String) : List String × Bool :=
  match Word.classify word with
  | .long name attached =>
      match findLong? items name with
      | some (.setting setting) =>
          if setting.isDelivery then ([], attached.isNone) else ([word], false)
      | _ => ([word], false)
  | .letters cs =>
      match keptLetters items cs with
      | ([], awaits) => ([], awaits)
      | (kept, awaits) => ([String.ofList ('-' :: kept)], awaits)
  | _ => ([word], false)

/-- What is left behind the verb; the first word goes if a value is awaited that has to go. -/
def keptWords (items : List Item) : (awaits : Bool) → List String → List String
  | _, [] => []
  | true, _ :: rest => keptWords items false rest
  | false, word :: rest =>
      if Word.classify word = .separator then word :: rest
      else (keptWord items word).1 ++ keptWords items (keptWord items word).2 rest

/-- The line without an output and with no colors. -/
def printing : List String → List String
  | [] => []
  | word :: rest =>
      match Verb.ofName? word with
      | some verb => word :: "--color=never" :: keptWords verb.items false rest
      | none => word :: printing rest

example : printing ["-v", "records", "--color", "always", "-vo", "out.rs", "--", "-o"] =
    ["-v", "records", "--color=never", "-v", "--", "-o"] := by decide

/-! ## Choices -/

namespace Choices

def printing (c : Choices) : Choices := { c with color := some .never, output := .none }

theorem set_printing {setting : Setting} (h : setting.isDelivery = false) (c : Choices)
    (value : String) : c.printing.set setting value = (c.set setting value).map printing := by
  have hmap : ∀ {α : Type} (r : Except UsageError α) (change : α → Choices),
      (r >>= fun a => .ok (change a).printing) = (r >>= fun a => .ok (change a)).map printing := by
    intro α r change
    cases r <;> rfl
  cases setting with
  | color => cases h
  | output => cases h
  | reserved => rfl
  | derive => rfl
  | grammar => exact hmap (once c.grammar _) fun grammar => { c with grammar }
  | dialect => exact hmap (once c.dialect _) fun dialect => { c with dialect }
  | format => exact hmap (once c.format _) fun format => { c with format }
  | indirection => exact hmap (once c.indirection _) fun indirection => { c with indirection }

/-- What is said about the output or about colors makes no difference for printing. -/
theorem printing_set {setting : Setting} (h : setting.isDelivery = true) (c : Choices)
    (value : String) : Yields (c.set setting value) fun d => d.printing = c.printing := by
  cases setting with
  | color => exact (Yields.any (once c.color _)).bind fun _ _ => .ok rfl
  | output => exact (Yields.any (once c.output _)).bind fun _ _ => .ok rfl
  | _ => cases h

theorem turnOn_printing (c : Choices) (switch : Switch) :
    c.printing.turnOn switch = (c.turnOn switch).map printing := by
  cases switch with
  | noDerive =>
      show (if c.noDerive then _ else _) = Except.map _ (if c.noDerive then _ else _)
      split <;> rfl
  | noHeader =>
      show (if c.noHeader then _ else _) = Except.map _ (if c.noHeader then _ else _)
      split <;> rfl
  | verbose => rfl
  | help => rfl

end Choices

/-! ## Scans -/

namespace Scan

def printing (s : Scan) : Scan := { s with choices := s.choices.printing }

/-- A setting that has to go waits for its value. -/
def awaitsDelivery (s : Scan) : Bool :=
  match s.pending with
  | some (setting, none) => setting.isDelivery
  | _ => false

/-- Nothing that has to go is pending. -/
def Clear (s : Scan) : Prop := ∀ p ∈ s.pending, p.1.isDelivery = false

theorem clear_of_none {s : Scan} (h : s.pending = none) : s.Clear := by
  intro p hp
  exact absurd (h.symm.trans hp) (Option.some_ne_none p).symm

theorem clear_of_some {s : Scan} {p : Setting × Option String} (h : s.pending = some p)
    (hp : p.1.isDelivery = false) : s.Clear := by
  intro q hq
  obtain rfl := Option.some.inj (h.symm.trans hq)
  exact hp

theorem Clear.awaitsDelivery {s : Scan} (h : s.Clear) : s.awaitsDelivery = false := by
  unfold Scan.awaitsDelivery
  split
  · exact h _ ‹_›
  · rfl

/--
What the scan of a whole line has in common with that of the words that are left.
While a value is awaited that stays, they differ in the choices alone.  While one
is awaited that has to go, nothing is awaited by the other.
-/
structure Follows (s s' : Scan) : Prop where
  pathsOnly : s'.pathsOnly = s.pathsOnly
  resolved : Yields s.resolve fun r => s'.resolve = .ok r.printing
  kept : ∀ setting, s.pending = some (setting, none) → setting.isDelivery = false →
    s' = s.printing
  dropped : s.awaitsDelivery = true → s'.resolve = .ok { s with pending := none }.printing

theorem follows_of_pending {t s' : Scan} (hpending : t.pending = none)
    (hpaths : s'.pathsOnly = t.pathsOnly) (hresolve : s'.resolve = .ok t.printing) :
    Follows t s' where
  pathsOnly := hpaths
  resolved := by
    rw [resolve_of_pending hpending]
    exact .ok hresolve
  kept := fun _ hp => absurd (hpending.symm.trans hp) (Option.some_ne_none _).symm
  dropped := by
    rw [awaitsDelivery, hpending]
    exact fun ha => nomatch ha

theorem resolve_printing {s : Scan} (h : s.Clear) :
    s.printing.resolve = s.resolve.map printing := by
  obtain ⟨choices, pending, pathsOnly⟩ := s
  match pending, h with
  | none, _ => rfl
  | some (_, none), _ => rfl
  | some (setting, some value), h =>
      show (choices.printing.set setting value >>= _) =
        Except.map _ (choices.set setting value >>= _)
      rw [Choices.set_printing (h (setting, some value) rfl)]
      cases choices.set setting value <;> rfl

/-- As long as nothing that has to go is pending, the choices are all that differs. -/
theorem follows_printing {s : Scan} (h : s.Clear) : Follows s s.printing where
  pathsOnly := rfl
  resolved := by
    rw [resolve_printing h]
    intro r hr
    rw [hr]
    rfl
  kept := fun _ _ _ => rfl
  dropped := fun hawaits => Bool.noConfusion (h.awaitsDelivery.symm.trans hawaits)

theorem start_printing {verb : Verb} (h : verb ≠ .pack) :
    step verb.items start "--color=never" = .ok start.printing := by
  cases verb with
  | shapes => rfl
  | records => rfl
  | pack => exact absurd rfl h

namespace Follows

variable {s s' : Scan} (h : Follows s s')

include h

theorem settled :
    Yields s.resolve fun r => s'.resolve = .ok r.printing ∧ r.pending = none ∧
      s'.pathsOnly = r.pathsOnly ∧ s'.hasPath = s.hasPath := by
  intro r hr
  have hresolve := h.resolved r hr
  obtain ⟨hpending, hpaths, hpath⟩ := s.resolve_settled r hr
  obtain ⟨-, -, hpath'⟩ := s'.resolve_settled _ hresolve
  exact ⟨hresolve, hpending, h.pathsOnly.trans hpaths.symm, hpath'.symm.trans hpath⟩

theorem change (f : Choices → Except UsageError Choices)
    (hf : ∀ c, f c.printing = (f c).map Choices.printing) :
    Yields (do let r ← s.resolve; return { r with choices := ← f r.choices }) fun t =>
      (do let r ← s'.resolve; return { r with choices := ← f r.choices }) = .ok t.printing ∧
        t.Clear := by
  refine h.settled.bind fun r hsettled => ?_
  obtain ⟨hr, hpending, -⟩ := hsettled
  rw [hr]
  show Yields (f r.choices >>= _) fun t => (f r.choices.printing >>= _) = _ ∧ _
  rw [hf]
  cases f r.choices with
  | error e => exact .error e
  | ok c => exact .ok ⟨rfl, clear_of_none hpending⟩

theorem turnOn (switch : Switch) :
    Yields (s.turnOn switch) fun t => s'.turnOn switch = .ok t.printing ∧ t.Clear :=
  h.change (·.turnOn switch) fun c => c.turnOn_printing switch

theorem setAttached {setting : Setting} (hkept : setting.isDelivery = false) (value : String) :
    Yields (s.setAttached setting value) fun t =>
      s'.setAttached setting value = .ok t.printing ∧ t.Clear :=
  h.change (·.set setting value) fun c => c.set_printing hkept value

theorem await {setting : Setting} (hkept : setting.isDelivery = false) :
    Yields (s.await setting) fun t => s'.await setting = .ok t.printing ∧ t.Clear := by
  refine h.resolved.bind fun r hr => .ok ⟨?_, clear_of_some rfl hkept⟩
  rw [Scan.await, hr]
  rfl

theorem path (word : String) :
    Yields (s.path word) fun t => s'.path word = .ok t.printing ∧ t.Clear := by
  unfold Scan.path
  split
  · exact .error _
  · rename_i hpath
    refine h.settled.bind fun r hsettled => .ok ⟨?_, clear_of_some rfl rfl⟩
    obtain ⟨hr, -, -, hsame⟩ := hsettled
    rw [hsame, if_neg hpath, hr]
    rfl

theorem drop_attached {setting : Setting} (hdelivery : setting.isDelivery = true)
    (value : String) :
    Yields (s.setAttached setting value) fun t => Follows t s' ∧ t.awaitsDelivery = false := by
  refine h.settled.bind fun r hsettled => ?_
  obtain ⟨hr, hpending, hpaths, -⟩ := hsettled
  refine (r.choices.printing_set hdelivery value).bind fun c hc =>
    .ok ⟨follows_of_pending hpending hpaths ?_, (clear_of_none hpending).awaitsDelivery⟩
  rw [hr, printing, printing, hc]

theorem drop_await {setting : Setting} (hdelivery : setting.isDelivery = true) :
    Yields (s.await setting) fun t => Follows t s' ∧ t.awaitsDelivery = true := by
  refine h.settled.bind fun r hsettled => ?_
  obtain ⟨hr, hpending, hpaths, -⟩ := hsettled
  refine .ok ⟨⟨hpaths, .error _, fun other hp hkept => ?_, fun _ => ?_⟩, hdelivery⟩
  · cases hp
    exact Bool.noConfusion (hkept.symm.trans hdelivery)
  · rw [hr, ← hpending]

/-- The value that was awaited goes as well. -/
theorem drop_value {setting : Setting} (hpending : s.pending = some (setting, none))
    (hdelivery : setting.isDelivery = true) (word : String) :
    Follows { s with pending := some (setting, some word) } s' := by
  have hawaits : s.awaitsDelivery = true := by
    rw [awaitsDelivery, hpending]
    exact hdelivery
  refine ⟨h.pathsOnly, ?_, fun _ hp => (nomatch hp), fun ha => (nomatch ha)⟩
  refine (s.choices.printing_set hdelivery word).bind fun c hc => .ok ?_
  rw [h.dropped hawaits, printing, printing, hc]

theorem separated : Follows s.separated s'.separated where
  pathsOnly := rfl
  resolved := by
    rw [resolve_separated]
    refine h.resolved.map fun r hr => ?_
    rw [resolve_separated, hr]
    rfl
  kept := fun setting hp hkept => by rw [h.kept setting hp hkept]; rfl
  dropped := fun ha => by rw [resolve_separated, h.dropped ha]; rfl

end Follows

/-! ## Words -/

/--
Where one scan goes on, the other goes on and follows it.  The flag tells whether
a value is awaited that has to go.
-/
def Mirrors (r r' : Except UsageError Scan) (awaits : Bool) : Prop :=
  Yields r fun t => ∃ t', r' = .ok t' ∧ Follows t t' ∧ t.awaitsDelivery = awaits

theorem mirrors_of_kept {r r' : Except UsageError Scan}
    (h : Yields r fun t => r' = .ok t.printing ∧ t.Clear) : Mirrors r r' false :=
  h.mono fun t ht => ⟨t.printing, ht.1, follows_printing ht.2, ht.2.awaitsDelivery⟩

theorem mirrors_of_dropped {r : Except UsageError Scan} {s' : Scan} {awaits : Bool}
    (h : Yields r fun t => Follows t s' ∧ t.awaitsDelivery = awaits) : Mirrors r (.ok s') awaits :=
  h.mono fun _ ht => ⟨s', rfl, ht⟩

theorem mirrors_cluster {items : List Item} {s s' : Scan} (h : Follows s s')
    (hawaits : s.awaitsDelivery = false) (cs : List Char) :
    Mirrors (cluster items s cs) (cluster items s' (keptLetters items cs).1)
      (keptLetters items cs).2 := by
  induction cs generalizing s s' with
  | nil => exact .ok ⟨s', rfl, h, hawaits⟩
  | cons c rest ih =>
      rw [keptLetters]
      cases hfind : findLetter? items c with
      | none =>
          rw [cluster, hfind]
          exact .error _
      | some item =>
          cases item with
          | switch switch =>
              simp only
              rw [cluster_switch hfind, cluster_switch hfind]
              refine (h.turnOn switch).bind fun t ht => ?_
              obtain ⟨hstep, hclear⟩ := ht
              rw [hstep]
              exact ih (follows_printing hclear) hclear.awaitsDelivery
          | setting setting =>
              cases hdelivery : setting.isDelivery with
              | true =>
                  simp only [hdelivery, if_true]
                  rcases cluster_setting hfind rest with ⟨rfl, hawait⟩ | ⟨hne, value, hvalue⟩
                  · rw [hawait]
                    exact mirrors_of_dropped (h.drop_await hdelivery)
                  · rw [hvalue, List.isEmpty_eq_false_iff.mpr hne]
                    exact mirrors_of_dropped (h.drop_attached hdelivery value)
              | false =>
                  simp only [hdelivery, Bool.false_eq_true, if_false]
                  rcases cluster_setting hfind rest with ⟨rfl, hawait⟩ | ⟨hne, value, hvalue⟩
                  · rw [hawait, hawait]
                    exact mirrors_of_kept (h.await hdelivery)
                  · rw [hvalue, hvalue]
                    exact mirrors_of_kept (h.setAttached hdelivery value)

/-- Letters are dropped from the end, so the first one that is left was the first. -/
theorem head_keptLetters {items : List Item} {c d : Char} {rest kept : List Char}
    (h : (keptLetters items (c :: rest)).1 = d :: kept) : d = c := by
  rw [keptLetters] at h
  split at h
  · split at h
    · cases h
    · exact (List.cons.inj h).1.symm
  · exact (List.cons.inj h).1.symm

section

variable {items : List Item} {s s' : Scan} (h : Follows s s') (hawaits : s.awaitsDelivery = false)
  (hpaths : s.pathsOnly = false) {word : String}

include h hpaths

theorem mirrors_long {name : String} {attached : Option String}
    (hclass : Word.classify word = .long name attached) :
    Mirrors (s.step items word) ((keptWord items word).1.foldlM (step items) s')
      (keptWord items word).2 := by
  have hpaths' : s'.pathsOnly = false := h.pathsOnly.trans hpaths
  cases hfind : findLong? items name with
  | none =>
      simp only [step, hpaths, hclass, hfind, Bool.false_eq_true, if_false]
      exact .error _
  | some item =>
      cases item with
      | switch switch =>
          simp only [keptWord, hclass, hfind]
          rw [foldlM_singleton]
          simp only [step, hpaths, hpaths', hclass, hfind, Bool.false_eq_true, if_false]
          cases attached with
          | none => exact mirrors_of_kept (h.turnOn switch)
          | some value => exact .error _
      | setting setting =>
          cases hdelivery : setting.isDelivery with
          | true =>
              simp only [keptWord, step, hpaths, hclass, hfind, hdelivery, Bool.false_eq_true,
                if_false, if_true]
              cases attached with
              | none => exact mirrors_of_dropped (h.drop_await hdelivery)
              | some value => exact mirrors_of_dropped (h.drop_attached hdelivery value)
          | false =>
              simp only [keptWord, hclass, hfind, hdelivery, Bool.false_eq_true, if_false]
              rw [foldlM_singleton]
              simp only [step, hpaths, hpaths', hclass, hfind, Bool.false_eq_true, if_false]
              cases attached with
              | none => exact mirrors_of_kept (h.await hdelivery)
              | some value => exact mirrors_of_kept (h.setAttached hdelivery value)

include hawaits

theorem mirrors_letters {cs : List Char} (hclass : Word.classify word = .letters cs) :
    Mirrors (s.step items word) ((keptWord items word).1.foldlM (step items) s')
      (keptWord items word).2 := by
  have hcluster : Mirrors (cluster items s cs) (cluster items s' (keptLetters items cs).1)
      (keptLetters items cs).2 := mirrors_cluster h hawaits cs
  rw [step_letters hpaths hclass]
  simp only [keptWord, hclass]
  obtain ⟨c, rest, rfl, hc⟩ := exists_cons_of_classify_letters hclass
  cases hkept : keptLetters items (c :: rest) with
  | mk kept awaits =>
      rw [hkept] at hcluster
      cases kept with
      | nil => exact hcluster
      | cons d kept =>
          have hd : d ≠ '-' := by
            rw [head_keptLetters (congrArg Prod.fst hkept)]
            exact hc
          simp only
          rw [foldlM_singleton, step_letters (h.pathsOnly.trans hpaths) (classify_letters hd kept)]
          exact hcluster

theorem mirrors_plain (hclass : Word.classify word = .plain) :
    Mirrors (s.step items word) ((keptWord items word).1.foldlM (step items) s')
      (keptWord items word).2 := by
  have hpaths' : s'.pathsOnly = false := h.pathsOnly.trans hpaths
  simp only [keptWord, hclass]
  rw [foldlM_singleton]
  by_cases hvalue : ∃ setting, s.pending = some (setting, none)
  · obtain ⟨setting, hpending⟩ := hvalue
    have hkept : setting.isDelivery = false := by
      simpa [awaitsDelivery, hpending] using hawaits
    obtain rfl := h.kept setting hpending hkept
    rw [step_value hpaths hclass hpending]
    exact mirrors_of_kept (.ok ⟨step_value hpaths' hclass hpending, clear_of_some rfl hkept⟩)
  · rw [step_path hpaths hclass fun setting hpending => hvalue ⟨setting, hpending⟩]
    refine mirrors_of_kept ((h.path word).mono fun t ht => ⟨?_, ht.2⟩)
    rw [step_path hpaths' hclass (not_awaiting_of_path ht.1), ht.1]

theorem mirrors_step (hword : Word.classify word ≠ .separator) :
    Mirrors (s.step items word) ((keptWord items word).1.foldlM (step items) s')
      (keptWord items word).2 := by
  cases hclass : Word.classify word with
  | separator => exact absurd hclass hword
  | long name attached => exact mirrors_long h hpaths hclass
  | letters cs => exact mirrors_letters h hawaits hpaths hclass
  | plain => exact mirrors_plain h hawaits hpaths hclass

end

/-! ## All words behind the verb -/

section

variable {items : List Item} {s s' : Scan}

theorem Follows.finish_paths (h : Follows s s') (hpaths : s.pathsOnly = true)
    (words : List String) :
    Yields (finish items s words) fun r => finish items s' words = .ok r.printing := by
  induction words generalizing s s' with
  | nil => exact h.resolved
  | cons word rest ih =>
      rw [finish_cons, finish_cons, step, step, if_pos hpaths, if_pos (h.pathsOnly.trans hpaths)]
      refine ((h.path word).and (resolves_path s word)).bind fun t ht => ?_
      obtain ⟨⟨hstep, hclear⟩, -, hsame⟩ := ht
      rw [hstep]
      exact ih (follows_printing hclear) (hsame.trans hpaths)

theorem exists_of_awaitsDelivery (h : s.awaitsDelivery = true) :
    ∃ setting, s.pending = some (setting, none) ∧ setting.isDelivery = true := by
  unfold awaitsDelivery at h
  split at h
  · exact ⟨_, ‹_›, h⟩
  · exact nomatch h

theorem Follows.finish (h : Follows s s') (hpaths : s.pathsOnly = false) (words : List String) :
    Yields (finish items s words) fun r =>
      finish items s' (keptWords items s.awaitsDelivery words) = .ok r.printing := by
  induction words generalizing s s' with
  | nil =>
      rw [keptWords]
      exact h.resolved
  | cons word rest ih =>
      rw [finish_cons]
      have hstep := Yields.self (s.step items word)
      cases hawaits : s.awaitsDelivery with
      | true =>
          obtain ⟨setting, hpending, hdelivery⟩ := exists_of_awaitsDelivery hawaits
          rw [keptWords]
          refine hstep.bind fun t ht => ?_
          rcases step_cases ht with ⟨-, -, rfl⟩ | ⟨-, -, setting', hpending', rfl⟩ | ⟨⟨r, hr⟩, -⟩
          · exact fun r hr => absurd hr (finish_of_awaiting (s := s.separated) rfl hpending rest r)
          · rw [hpending] at hpending'
            cases hpending'
            exact ih (h.drop_value hpending hdelivery word) hpaths
          · exact absurd hr (resolve_of_awaiting hpending r)
      | false =>
          rw [keptWords]
          by_cases hword : Word.classify word = .separator
          · rw [if_pos hword, finish_cons, step_separator hpaths hword,
              step_separator (h.pathsOnly.trans hpaths) hword]
            exact h.separated.finish_paths rfl rest
          · rw [if_neg hword, finish_append]
            refine (hstep.and (mirrors_step h hawaits hpaths hword)).bind fun t hboth => ?_
            obtain ⟨ht, t', ht', hfollows, hflag⟩ := hboth
            rw [ht', ← hflag]
            exact ih hfollows ((pathsOnly_step hword ht).trans hpaths)

end

end Scan

/-! ## The whole line -/

namespace Command

/-- The same command with its text on the output and without colors. -/
def printing : Command → Command
  | shapes c => .shapes { c with output := none, colorChoice := .never }
  | records c => .records { c with output := none, colorChoice := .never }
  | pack c => .pack c

end Command

theorem command_printing (c : Choices) {verb : Verb} (h : verb ≠ .pack) :
    c.printing.command verb = (c.command verb).map Command.printing := by
  obtain ⟨grammar, _, _, _, _, _, _, derive, noDerive, _, _⟩ := c
  cases verb with
  | pack => exact absurd rfl h
  | shapes => cases grammar <;> rfl
  | records => cases noDerive <;> cases derive <;> cases grammar <;> rfl

theorem command_pack (c : Choices) : Yields (c.command .pack) fun made => ∃ p, made = .pack p := by
  simp only [Choices.command]
  split
  · exact .ok ⟨_, rfl⟩
  · exact .error _

theorem readVerb_pack (verbose : Nat) (words : List String) :
    Yields (readVerb .pack verbose words) fun i => ∃ p, i.command = .pack p :=
  (Yields.any _).bind fun c _ => (command_pack c).bind fun _ hp => .ok hp

theorem readVerb_printing {verb : Verb} (h : verb ≠ .pack) (verbose : Nat) (words : List String) :
    Yields (readVerb verb verbose words) fun i =>
      readVerb verb verbose ("--color=never" :: keptWords verb.items false words) =
        .ok ⟨i.verbose, i.command.printing⟩ := by
  have hstart : Scan.Follows .start Scan.start.printing :=
    Scan.follows_printing (Scan.clear_of_none rfl)
  have hfinish : Yields (Scan.finish verb.items .start words) fun s =>
      Scan.finish verb.items Scan.start.printing (keptWords verb.items false words) =
        .ok s.printing := hstart.finish rfl words
  unfold readVerb
  rw [readChoices_eq, readChoices_eq, Scan.finish_cons, Scan.start_printing h]
  cases hwords : Scan.finish verb.items .start words with
  | error e => exact .error e
  | ok s =>
      show Yields (s.choices.command verb >>= _) fun i => (Except.map Scan.choices
        (Scan.finish verb.items Scan.start.printing (keptWords verb.items false words)) >>= _) = _
      rw [hfinish s hwords]
      show Yields (s.choices.command verb >>= _) fun i =>
        (s.choices.printing.command verb >>= _) = _
      rw [command_printing s.choices h]
      cases s.choices.command verb with
      | error e => exact .error e
      | ok made => exact .ok rfl

theorem readLine_printing (words : List String) (s : Scan) :
    Yields (readLine s words) fun i => (∀ p, i.command ≠ .pack p) →
      readLine s (printing words) = .ok ⟨i.verbose, i.command.printing⟩ := by
  induction words generalizing s with
  | nil => exact .error _
  | cons word rest ih =>
      cases hverb : Verb.ofName? word with
      | some verb =>
          simp only [printing, hverb, readLine, classify_of_verb hverb]
          by_cases hverb : verb = .pack
          · rw [hverb]
            refine (readVerb_pack _ rest).mono fun i hi hpack => ?_
            obtain ⟨p, hp⟩ := hi
            exact absurd hp (hpack p)
          · exact (readVerb_printing hverb _ rest).mono fun i hi _ => hi
      | none =>
          simp only [printing, hverb]
          by_cases hplain : Word.classify word = .plain
          · simp only [readLine, hplain, hverb]
            exact .error _
          · by_cases hseparator : Word.classify word = .separator
            · simp only [readLine, hseparator]
              cases rest <;> exact .error _
            · rw [readLine_word hplain hseparator, readLine_word hplain hseparator]
              refine (Yields.self (s.step Item.common word)).bind fun t ht => ?_
              rw [ht]
              exact ih t

/-- The line that prints is read as the command that prints. -/
theorem read_printing {words : List String} {verbose : Nat} {c : Command}
    (h : read words = .ok ⟨verbose, c⟩) (hpack : ∀ p, c ≠ .pack p) :
    read (printing words) = .ok ⟨verbose, c.printing⟩ :=
  readLine_printing words .start _ h hpack

end CommandLine
end GrammarRecords
