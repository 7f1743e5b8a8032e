/-
What a session comes to once its command line is read.

The command loads a grammar, makes its product and delivers it: to the output,
which never fails, or to a file.  Every failure comes before the file is
written, so nothing is left to undo.
-/
import GrammarRecords.CommandLine.Session
import GrammarRecords.Proofs.CommandLine.FileSystem

namespace GrammarRecords
namespace CommandLine

open Packed (Bytes)

/-! ## Running a command -/

def Source.contents (fs : FileSystem) (input : Bytes) : Source → Except FileFault Bytes
  | .input => .ok input
  | .fileText path => fs.read path
  | .packedFile path => fs.read path

def load (fs : FileSystem) (input : Bytes) (path : String) : Except CommandError Grammar :=
  (Source.ofPath path).grammar ((Source.ofPath path).contents fs input)

namespace Command

/-- What a command does once its product is made. -/
def deliver (fs : FileSystem) (c : Command) (product : Product) :
    Except CommandError (Product × FileSystem) :=
  match c.output? with
  | none => .ok (product, fs)
  | some path => do return (product, ← (fs.write path product.bytes).mapError (.write path))

theorem run_eq (fs : FileSystem) (terminal : Bool) (input : Bytes) (c : Command) :
    c.run fs terminal input =
      load fs input c.grammarPath >>= fun g => c.deliver fs (c.product terminal g) := rfl

theorem run_of_load {fs : FileSystem} {input : Bytes} {c : Command} {g : Grammar}
    (h : load fs input c.grammarPath = .ok g) (terminal : Bool) :
    c.run fs terminal input = c.deliver fs (c.product terminal g) := by
  rw [run_eq, h]
  rfl

end Command

/-! ## Sessions -/

theorem session_failed {fs : FileSystem} {terminal : Bool} {words : List String} {input : Bytes}
    (h : (session fs terminal words input).exitCode ≠ 0) :
    (session fs terminal words input).files = fs ∧
      (session fs terminal words input).output = [] := by
  revert h
  unfold session
  cases read words with
  | error e => exact fun _ => ⟨rfl, rfl⟩
  | ok invocation =>
      simp only
      cases invocation.command.run fs terminal input with
      | error e => exact fun _ => ⟨rfl, rfl⟩
      | ok made => exact fun h => absurd rfl h

section

variable {fs : FileSystem} {terminal : Bool} {input : Bytes} {words : List String} {verbose : Nat}
  {c : Command}
  (hread : read words = .ok ⟨verbose, c⟩)

include hread

theorem session_eq : session fs terminal words input = match c.run fs terminal input with
    | .error e => ⟨1, [], e.report, fs⟩
    | .ok (product, files) =>
        ⟨0, if c.output?.isSome then [] else product.bytes, "", files⟩ := by
  cases hrun : c.run fs terminal input with
  | error e => simp only [session, hread, hrun]
  | ok made => simp only [session, hread, hrun]

theorem exists_load_of_exitCode (h : (session fs terminal words input).exitCode = 0) :
    ∃ g, load fs input c.grammarPath = .ok g := by
  cases hload : load fs input c.grammarPath with
  | ok g => exact ⟨g, rfl⟩
  | error e =>
      rw [session_eq hread, Command.run_eq, hload] at h
      exact absurd h Nat.one_ne_zero

variable {g : Grammar} (hload : load fs input c.grammarPath = .ok g)

include hload

theorem session_printed (houtput : c.output? = none) :
    session fs terminal words input = ⟨0, (c.product terminal g).bytes, "", fs⟩ := by
  rw [session_eq hread, Command.run_of_load hload, Command.deliver, houtput]
  rfl

theorem session_written {path : String} {files : FileSystem} (houtput : c.output? = some path)
    (hwrite : fs.write path (c.product terminal g).bytes = .ok files) :
    session fs terminal words input = ⟨0, [], "", files⟩ := by
  rw [session_eq hread, Command.run_of_load hload, Command.deliver, houtput]
  simp only
  rw [hwrite]
  rfl

theorem session_unwritten {path : String} {fault : FileFault} (houtput : c.output? = some path)
    (hwrite : fs.write path (c.product terminal g).bytes = .error fault) :
    session fs terminal words input = ⟨1, [], (CommandError.write path fault).report, fs⟩ := by
  rw [session_eq hread, Command.run_of_load hload, Command.deliver, houtput]
  simp only
  rw [hwrite]
  rfl

theorem exitCode_eq_zero_iff {path : String} (houtput : c.output? = some path) :
    (session fs terminal words input).exitCode = 0 ↔
      ∃ files, fs.write path (c.product terminal g).bytes = .ok files := by
  cases hwrite : fs.write path (c.product terminal g).bytes with
  | ok files =>
      rw [session_written hread hload houtput hwrite]
      exact iff_of_true rfl ⟨files, rfl⟩
  | error fault =>
      rw [session_unwritten hread hload houtput hwrite]
      exact iff_of_false Nat.one_ne_zero fun ⟨files, h⟩ => nomatch h

/-- A file that is written is read with the product in it. -/
theorem read_of_exitCode {path : String} (houtput : c.output? = some path)
    (h : (session fs terminal words input).exitCode = 0) :
    (session fs terminal words input).files.read path = .ok (c.product terminal g).bytes := by
  obtain ⟨files, hwrite⟩ := (exitCode_eq_zero_iff hread hload houtput).mp h
  rw [session_written hread hload houtput hwrite]
  exact FileSystem.read_of_write hwrite

end

def twoRulesText : String :=
  "[\"g\",\x7b\"b\":[\"SEQ\",[[\"SYMBOL\",\"a\"],[\"SYMBOL\",\"a\"]]],\"a\":[\"BLANK\"]\x7d]"

/-- A working directory with a grammar file in it. -/
def twoRules : FileSystem :=
  ⟨.ofList [(["work", "g.json"], .file (Packed.textBytes twoRulesText))], ["work"]⟩

end CommandLine
end GrammarRecords
