/-
One run of the program as seen from outside.
-/
import GrammarRecords.CommandLine.Command

namespace GrammarRecords
namespace CommandLine

structure Transcript where
  exitCode : Nat
  output : Packed.Bytes
  errors : String
  files : FileSystem
deriving DecidableEq

def UsageError.exitCode : UsageError → Nat
  | .helpRequested => 0
  | _ => 2

def CommandError.report (e : CommandError) : String := "error: " ++ e.message ++ "\n"

/--
The output may be a terminal or not.  A product that goes to a file does not go
to the output.
-/
def session (fs : FileSystem) (terminal : Bool) (words : List String) (input : Packed.Bytes) :
    Transcript :=
  match read words with
  | .error e => ⟨e.exitCode, [], "", fs⟩
  | .ok invocation =>
      match invocation.command.run fs terminal input with
      | .error e => ⟨1, [], e.report, fs⟩
      | .ok (product, files) =>
          ⟨0, if invocation.command.output?.isSome then [] else product.bytes, "", files⟩

end CommandLine
end GrammarRecords
