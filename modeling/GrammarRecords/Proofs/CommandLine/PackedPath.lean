/-
A packed file in the place of its source.

Packing writes the grammar that was loaded, and what is written is loaded again
as the same grammar: its lengths fit, because they come from a packed file or
from a text with fewer than `2 ^ 64` bytes, and no path leads elsewhere once the
file is written.  A command needs the grammar only, so every command line does
with the packed file what it did with the source (`packed_path_agrees`).
-/
import GrammarRecords.Proofs.CommandLine.Session
import GrammarRecords.Proofs.Grammar.Size

namespace GrammarRecords
namespace CommandLine

open Packed (Bytes countLimit)

/-! ## Loading -/

theorem Source.ofPath_of_extension {path : String} (h : extension? path = some "bin") :
    Source.ofPath path = .packedFile path := by
  have hne : path ≠ "-" := by
    rintro rfl
    exact absurd h (by decide)
  rw [ofPath, if_neg hne, if_pos h]

theorem Source.fits_of_grammar {source : Source} {contents : Except FileFault Bytes} {g : Grammar}
    (hsize : ∀ bytes, contents = .ok bytes → bytes.length < countLimit)
    (h : source.grammar contents = .ok g) : g.Fits := by
  have hfile : ∀ (error : FileFault → CommandError) (name : String),
      Yields (do
        let text ← (contents >>= textOf).mapError error
        (Grammar.loadFileText text).mapError (CommandError.grammar name)) Grammar.Fits := by
    intro error name
    have htext : Yields (contents >>= textOf) fun text => text.utf8ByteSize < countLimit := by
      refine Yields.bind hsize fun bytes hbytes text htext => ?_
      unfold textOf at htext
      split at htext
      · rename_i s hs
        rw [← Except.ok.inj htext, Packed.utf8ByteSize_of_textOfBytes? hs]
        exact hbytes
      · exact nomatch htext
    refine htext.mapError.bind fun text hlt => Yields.mapError (Yields.mapError fun g hg => ?_)
    exact Grammar.fits_of_ofFileText hg hlt
  cases source with
  | input => exact hfile _ _ g h
  | fileText path => exact hfile _ _ g h
  | packedFile path =>
      have hpacked : Yields (do
          let bytes ← contents.mapError (CommandError.read path)
          (Grammar.loadPacked bytes).mapError (CommandError.grammar path)) Grammar.Fits :=
        (Yields.any _).bind fun bytes _ =>
          Yields.mapError (Yields.mapError fun g hg => Grammar.fits_of_unpack hg)
      exact hpacked g h

theorem load_of_pack {fs : FileSystem} {path : String} {g : Grammar} (hfits : g.Fits)
    (hextension : extension? path = some "bin") (hread : fs.read path = .ok g.pack)
    (input : Bytes) : load fs input path = .ok g := by
  have hpayload := Grammar.readsBack_payload hfits []
  rw [List.append_nil] at hpayload
  have hunpack : Grammar.unpack g.pack = .ok g := Grammar.unpack_eq_of_readPayload hpayload
  rw [load, Source.ofPath_of_extension hextension, Source.contents, hread]
  show ((Grammar.unpack g.pack).mapError Grammar.LoadError.packed).mapError _ = _
  rw [hunpack]
  rfl

/-! ## The same command -/

namespace Command

/-- The same command for the grammar at another path. -/
def withGrammar (path : String) : Command → Command
  | shapes c => .shapes { c with grammar := path }
  | records c => .records { c with grammar := path }
  | pack c => .pack { c with grammar := path }

@[simp] theorem grammarPath_withGrammar (path : String) (c : Command) :
    (c.withGrammar path).grammarPath = path := by
  cases c <;> rfl

@[simp] theorem output?_withGrammar (path : String) (c : Command) :
    (c.withGrammar path).output? = c.output? := by
  cases c <;> rfl

@[simp] theorem product_withGrammar (path : String) (c : Command) (terminal : Bool) (g : Grammar) :
    (c.withGrammar path).product terminal g = c.product terminal g := by
  cases c <;> rfl

end Command

/-! ## The packed file -/

/--
Two sessions give the same text where it was asked for: on the output, which
never fails, or in the file, if it can be written.
-/
structure SameText (destination : Option String) (t t' : Transcript) : Prop where
  exitCode : t.exitCode = t'.exitCode
  output : t.output = t'.output
  printed : destination = none → t.exitCode = 0
  written : ∀ path, destination = some path → t.exitCode = 0 →
    ∃ bytes, t.files.read path = .ok bytes ∧ t'.files.read path = .ok bytes

theorem sameText_of_load {fs fs' : FileSystem} (terminal : Bool) {input input' : Bytes}
    {words words' : List String} {verbose verbose' : Nat} {c c' : Command} {g : Grammar}
    (hread : read words = .ok ⟨verbose, c⟩) (hread' : read words' = .ok ⟨verbose', c'⟩)
    (hload : load fs input c.grammarPath = .ok g) (hload' : load fs' input' c'.grammarPath = .ok g)
    (houtput : c'.output? = c.output?) (hproduct : c'.product terminal g = c.product terminal g)
    (hwrite : ∀ path bytes, (∃ files, fs'.write path bytes = .ok files) ↔
      ∃ files, fs.write path bytes = .ok files) :
    SameText c.output? (session fs terminal words input)
      (session fs' terminal words' input') := by
  cases hpath : c.output? with
  | none =>
      rw [session_printed hread hload hpath,
        session_printed hread' hload' (houtput.trans hpath), hproduct]
      exact ⟨rfl, rfl, fun _ => rfl, fun path he => absurd he.symm (Option.some_ne_none path)⟩
  | some path =>
      have hpath' := houtput.trans hpath
      have hsame := hwrite path (c.product terminal g).bytes
      cases hfiles : fs.write path (c.product terminal g).bytes with
      | ok files =>
          obtain ⟨files', hfiles'⟩ := hsame.mpr ⟨files, hfiles⟩
          rw [session_written hread hload hpath hfiles,
            session_written hread' hload' hpath' (hproduct ▸ hfiles')]
          refine ⟨rfl, rfl, fun he => absurd he (Option.some_ne_none path), fun path' he _ => ?_⟩
          rw [← Option.some.inj he]
          exact ⟨(c.product terminal g).bytes, FileSystem.read_of_write hfiles,
            FileSystem.read_of_write hfiles'⟩
      | error fault =>
          cases hfiles' : fs'.write path (c.product terminal g).bytes with
          | ok files' =>
              obtain ⟨files, hok⟩ := hsame.mp ⟨files', hfiles'⟩
              rw [hfiles] at hok
              cases hok
          | error fault' =>
              rw [session_unwritten hread hload hpath hfiles,
                session_unwritten hread' hload' hpath' (hproduct ▸ hfiles')]
              exact ⟨rfl, rfl, fun he => absurd he (Option.some_ne_none path),
                fun _ _ he => absurd he Nat.one_ne_zero⟩

/--
After a grammar was packed, every command line does with the packed file what it
did before with the source, and packing the packed file writes its bytes.  The
source is a text or a packed file of fewer than `2 ^ 64` bytes; it may be the
file that is written.
-/
theorem packed_path_agrees {fs files : FileSystem} {terminal : Bool} {input : Bytes}
    {packing : List String} {verbose : Nat} {source packed : String}
    (hread : read packing = .ok ⟨verbose, .pack ⟨source, packed⟩⟩)
    (hextension : extension? packed = some "bin")
    (hsize : ∀ bytes, (Source.ofPath source).contents fs input = .ok bytes →
      bytes.length < countLimit)
    (hdone : (session fs terminal packing input).exitCode = 0)
    (hfiles : (session fs terminal packing input).files = files) :
    (∀ (c : Command) (before after : List String) (v v' : Nat) (later : Bytes) (terminal' : Bool),
      read before = .ok ⟨v, c.withGrammar source⟩ → read after = .ok ⟨v', c.withGrammar packed⟩ →
        SameText c.output? (session fs terminal' before input)
          (session files terminal' after later)) ∧
    ∃ bytes, files.read packed = .ok bytes ∧
      ∀ (repacking : List String) (v : Nat) (copy : String) (later : Bytes) (terminal' : Bool),
        read repacking = .ok ⟨v, .pack ⟨packed, copy⟩⟩ →
          ((session files terminal' repacking later).exitCode = 0 ↔
            ∃ written, files.write copy bytes = .ok written) ∧
          ((session files terminal' repacking later).exitCode = 0 →
            (session files terminal' repacking later).files.read copy = .ok bytes) := by
  obtain ⟨g, hload⟩ := exists_load_of_exitCode hread hdone
  obtain ⟨written, hwrite⟩ := (exitCode_eq_zero_iff hread hload rfl).mp hdone
  obtain rfl : written = files := by
    rw [session_written hread hload rfl hwrite] at hfiles
    exact hfiles
  have hpacked : written.read packed = .ok g.pack := FileSystem.read_of_write hwrite
  have hagain : ∀ later, load written later packed = .ok g :=
    load_of_pack (Source.fits_of_grammar hsize hload) hextension hpacked
  refine ⟨fun c before after v v' later terminal' hbefore hafter => ?_, g.pack, hpacked, ?_⟩
  · have hsame := sameText_of_load (g := g) terminal' hbefore hafter
      (by rw [Command.grammarPath_withGrammar]; exact hload)
      (by rw [Command.grammarPath_withGrammar]; exact hagain later)
      (by rw [Command.output?_withGrammar, Command.output?_withGrammar])
      (by rw [Command.product_withGrammar, Command.product_withGrammar])
      fun path bytes => FileSystem.exists_write_iff_of_write hwrite
    rwa [Command.output?_withGrammar] at hsame
  · intro repacking v copy later terminal' hrepack
    exact ⟨exitCode_eq_zero_iff hrepack (hagain later) rfl,
      read_of_exitCode hrepack (hagain later) rfl⟩

theorem packed_path_agrees_twoRules :
    extension? "g.bin" = some "bin" ∧
      (session twoRules false ["pack", "g.json", "-o", "g.bin"] []).exitCode = 0 ∧
      SameText none (session twoRules true ["records", "g.json", "-d", "rust"] [])
        (session (session twoRules false ["pack", "g.json", "-o", "g.bin"] []).files true
          ["records", "-d=rust", "g.bin"] []) := by
  have hread : read ["pack", "g.json", "-o", "g.bin"] = .ok ⟨0, .pack ⟨"g.json", "g.bin"⟩⟩ := rfl
  have hextension : extension? "g.bin" = some "bin" := by decide
  have hdone : (session twoRules false ["pack", "g.json", "-o", "g.bin"] []).exitCode = 0 := by
    decide +kernel
  have hsize : ∀ bytes, (Source.ofPath "g.json").contents twoRules [] = .ok bytes →
      bytes.length < countLimit := by
    intro bytes hbytes
    have htext : (Source.ofPath "g.json").contents twoRules [] =
        .ok (Packed.textBytes twoRulesText) := rfl
    rw [← Except.ok.inj (htext.symm.trans hbytes), Packed.length_textBytes]
    decide
  exact ⟨hextension, hdone, (packed_path_agrees hread hextension hsize hdone rfl).1
    (.records ⟨"g.json", .rust, [], none, false, .box, true, .text, none, .auto⟩) _ _ 0 0 [] true
    rfl rfl⟩

end CommandLine
end GrammarRecords
