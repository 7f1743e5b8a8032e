/-
The program: the steps of a session carried out on the real files.
-/
import GrammarRecords.CommandLine.Session

namespace GrammarRecords
namespace CommandLine

def usage : String :=
  "Usage: shapegen [-v]... <shapes|records|pack> <GRAMMAR> [OPTIONS]\n"

def UsageError.message : UsageError → String
  | .unknownArgument => "unexpected argument"
  | .unknownVerb => "unrecognized subcommand"
  | .badValue => "invalid or missing value"
  | .conflict => "arguments cannot be used together"
  | .missingArgument => "required arguments were not provided"
  | .missingVerb => "a subcommand is required"
  | .unexpectedValue => "unexpected value for a flag"
  | .helpRequested => "help requested"
  | .nothingGiven => "no arguments given"

/- The number of an error comes with either sign, depending on the call that failed. -/
def faultOf : IO.Error → FileFault
  | .noFileOrDirectory _ _ _ => .missing
  | .inappropriateType _ code _ =>
      if code = 20 ∨ code = 0 - 20 then .notDirectory else .isDirectory
  | e => .other (toString e)

def attempt {α : Type} (act : IO α) : IO (Except FileFault α) := do
  try
    return .ok (← act)
  catch e =>
    return .error (faultOf e)

def bytesOf (bs : ByteArray) : Packed.Bytes := bs.data.toList

def ofBytes (bs : Packed.Bytes) : ByteArray := ⟨bs.toArray⟩

def fetch : Source → IO (Except FileFault Packed.Bytes)
  | .input => attempt do return bytesOf (← (← IO.getStdin).readBinToEnd)
  | .fileText path | .packedFile path => attempt do return bytesOf (← IO.FS.readBinFile path)

def fail (e : CommandError) : IO UInt32 := do
  IO.eprint e.report
  return 1

def deliver (c : Command) (product : Product) : IO UInt32 := do
  match c.output? with
  | none =>
      let output ← IO.getStdout
      output.write (ofBytes product.bytes)
      output.flush
      return 0
  | some path =>
      match ← attempt (IO.FS.writeBinFile path (ofBytes product.bytes)) with
      | .ok _ => return 0
      | .error fault => fail (.write path fault)

def perform (c : Command) : IO UInt32 := do
  match c.source.grammar (← fetch c.source) with
  | .error e => fail e
  | .ok g => deliver c (c.product (← (← IO.getStdout).isTty) g)

end CommandLine
end GrammarRecords

open GrammarRecords.CommandLine in
def main (words : List String) : IO UInt32 := do
  match read words with
  | .error .helpRequested =>
      IO.print usage
      return 0
  | .error e =>
      IO.eprint ("error: " ++ e.message ++ "\n\n" ++ usage)
      return 2
  | .ok invocation => perform invocation.command
