/-
A session does all that it was asked for, or nothing.

Whatever can fail does so before the one write, and a write that fails has no
effect.  So a session that fails leaves every file and prints nothing, one
without an output path leaves every file, and one with an output path prints
nothing and changes the entry to which the path leads and no other.  Colors are
a matter of the output alone: the text in the file is the one that the line
without the path prints when it is asked for no colors, to a terminal or not
(`session_atomic`).
-/
import GrammarRecords.Proofs.CommandLine.Printing
import GrammarRecords.Proofs.CommandLine.Session

namespace GrammarRecords
namespace CommandLine

open Packed (Bytes)

namespace Command

theorem grammarPath_printing (c : Command) : c.printing.grammarPath = c.grammarPath := by
  cases c <;> rfl

theorem output?_printing {c : Command} (h : ∀ p, c ≠ .pack p) : c.printing.output? = none := by
  cases c with
  | shapes c => rfl
  | records c => rfl
  | pack p => exact absurd rfl (h p)

/-- A text in a file has no colors, whatever was said about them. -/
theorem product_printing {c : Command} {path : String} (h : c.output? = some path)
    (terminal terminal' : Bool) (g : Grammar) :
    c.printing.product terminal' g = c.product terminal g := by
  have hcolor : ∀ choice, usesColor terminal (some path) choice = usesColor terminal' none .never :=
    fun _ => rfl
  cases c with
  | shapes c =>
      have houtput : c.output = some path := h
      show Product.text (ShapesCommand.text terminal' _ g) = Product.text (c.text terminal g)
      simp only [ShapesCommand.text, ShapesCommand.color, houtput, hcolor]
  | records c =>
      have houtput : c.output = some path := h
      show Product.text (RecordsCommand.text terminal' _ g) = Product.text (c.text terminal g)
      simp only [RecordsCommand.text, RecordsCommand.config, RecordsCommand.color,
        RecordsCommand.derives, houtput, hcolor]
  | pack c => rfl

end Command

section

variable {fs : FileSystem} {terminal : Bool} {input : Bytes} {words : List String} {verbose : Nat}
  {c : Command} (hread : read words = .ok ⟨verbose, c⟩) {g : Grammar}
  (hload : load fs input c.grammarPath = .ok g)

include hread hload

theorem session_printing (hpack : ∀ p, c ≠ .pack p) {path : String}
    (houtput : c.output? = some path) (terminal' : Bool) :
    session fs terminal' (printing words) input = ⟨0, (c.product terminal g).bytes, "", fs⟩ := by
  have hload' : load fs input c.printing.grammarPath = .ok g := by
    rw [c.grammarPath_printing]
    exact hload
  rw [session_printed (read_printing hread hpack) hload' (Command.output?_printing hpack),
    Command.product_printing houtput terminal terminal']

/-- The file that is written is the only entry that changes. -/
theorem entry_of_exitCode {path : String} (houtput : c.output? = some path)
    (hdone : (session fs terminal words input).exitCode = 0) :
    ∃ place, fs.Leads path place ∧ ∀ other, other ≠ place →
      (session fs terminal words input).files.entry? other = fs.entry? other := by
  obtain ⟨files, hwrite⟩ := (exitCode_eq_zero_iff hread hload houtput).mp hdone
  rw [session_written hread hload houtput hwrite]
  obtain ⟨place, hleads, rfl⟩ := FileSystem.write_eq_ok_iff.mp hwrite
  exact ⟨place, hleads, fun other hother => FileSystem.entry_withFile_of_ne hother _⟩

end

/--
A session that fails leaves the files as they are and prints nothing.  One that
succeeds leaves the files as they are unless there is an output path; then it
prints nothing, changes no entry but the one to which the path leads, and if it
does not pack, puts there what the line prints without the path and colors.
-/
theorem session_atomic {fs : FileSystem} {terminal : Bool} {words : List String} {input : Bytes}
    {t : Transcript} (ht : session fs terminal words input = t) :
    (t.exitCode ≠ 0 → t.files = fs ∧ t.output = []) ∧
      ∀ verbose c, read words = .ok ⟨verbose, c⟩ → t.exitCode = 0 →
        (c.output? = none → t.files = fs) ∧
        ∀ path, c.output? = some path →
          t.output = [] ∧
          (∃ place, fs.Leads path place ∧ ∀ other, other ≠ place →
            t.files.entry? other = fs.entry? other) ∧
          ((∀ p, c ≠ .pack p) → ∃ bytes, t.files.read path = .ok bytes ∧
            ∀ terminal', session fs terminal' (printing words) input = ⟨0, bytes, "", fs⟩) := by
  subst ht
  refine ⟨session_failed, fun verbose c hread hdone => ?_⟩
  obtain ⟨g, hload⟩ := exists_load_of_exitCode hread hdone
  refine ⟨fun houtput => ?_, fun path houtput => ⟨?_, ?_, fun hpack => ?_⟩⟩
  · rw [session_printed hread hload houtput]
  · obtain ⟨files, hwrite⟩ := (exitCode_eq_zero_iff hread hload houtput).mp hdone
    rw [session_written hread hload houtput hwrite]
  · exact entry_of_exitCode hread hload houtput hdone
  · exact ⟨(c.product terminal g).bytes, read_of_exitCode hread hload houtput hdone,
      session_printing hread hload hpack houtput⟩

/-- The output may be the file with the grammar, by another path. -/
theorem session_atomic_twoRules :
    ∃ t, session twoRules true ["records", "--color", "always", "-vo", "../work/g.json",
        "/work/g.json"] [] = t ∧
      t.exitCode = 0 ∧ t.output = [] ∧
      ∃ bytes, t.files.read "../work/g.json" = .ok bytes ∧
        ∀ terminal', session twoRules terminal' ["records", "--color=never", "-v",
          "/work/g.json"] [] = ⟨0, bytes, "", twoRules⟩ := by
  have hread : read ["records", "--color", "always", "-vo", "../work/g.json", "/work/g.json"] =
      .ok ⟨1, .records ⟨"/work/g.json", default, [], none, false, default, true, default,
        some "../work/g.json", .always⟩⟩ := rfl
  have hdone : (session twoRules true ["records", "--color", "always", "-vo", "../work/g.json",
      "/work/g.json"] []).exitCode = 0 := by
    decide +kernel
  obtain ⟨hempty, -, htext⟩ := ((session_atomic rfl).2 1 _ hread hdone).2 "../work/g.json" rfl
  exact ⟨_, rfl, hdone, hempty, htext fun p he => nomatch he⟩

end CommandLine
end GrammarRecords
