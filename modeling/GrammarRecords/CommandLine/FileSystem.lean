/-
Files and directories.

A place is told by the names that lead to it from the root.  A path is a word
with slashes.  It starts at the root if a slash comes first, and else at the
working directory; it is followed component by component, and every component
but the last has to lead to a directory.  There are no links, and every file may
be read and written.
-/
import GrammarRecords.Packed.Field
import GrammarRecords.Table
import GrammarRecords.Text.Split

namespace GrammarRecords
namespace CommandLine

/-- The extension of the last name in a path.  A name that starts with its only dot has none. -/
def extension? (path : String) : Option String :=
  match ((Text.splitAt '/' path).filter fun c => c ≠ "" && c ≠ ".").getLast? with
  | none => none
  | some name =>
      if name = ".." then none
      else
        let after := (name.toList.reverse.takeWhile (· != '.')).reverse
        let before := name.toList.length - after.length
        if 2 ≤ before then some (String.ofList after) else none

inductive FileFault where
  | missing
  | isDirectory
  | notDirectory
  | notText
  | other (description : String)
deriving DecidableEq, Repr

def FileFault.message : FileFault → String
  | .missing => "No such file or directory (os error 2)"
  | .isDirectory => "Is a directory (os error 21)"
  | .notDirectory => "Not a directory (os error 20)"
  | .notText => "stream did not contain valid UTF-8"
  | .other description => description

inductive Entry where
  | file (bytes : Packed.Bytes)
  | directory
deriving DecidableEq, Repr

/-- The names that lead from the root to an entry. -/
abbrev Place := List String

structure FileSystem where
  entries : Table Place Entry
  workingDirectory : Place
deriving DecidableEq

namespace FileSystem

def empty (workingDirectory : Place) : FileSystem := ⟨.empty, workingDirectory⟩

instance : Inhabited FileSystem := ⟨empty []⟩

/-- The working directory and those above it are there without being listed. -/
def entry? (fs : FileSystem) (place : Place) : Option Entry :=
  if place.isPrefixOf fs.workingDirectory then some .directory else fs.entries.get? place

/-- The root is its own parent. -/
def parent (place : Place) : Place := place.dropLast

def child (place : Place) (name : String) : Place := place ++ [name]

/-- Follows one component from a place that has to be a directory. -/
def enter (fs : FileSystem) (place : Place) (component : String) : Except FileFault Place :=
  match fs.entry? place with
  | none => .error .missing
  | some (.file _) => .error .notDirectory
  | some .directory =>
      if component = "" ∨ component = "." then .ok place
      else if component = ".." then .ok (parent place)
      else .ok (child place component)

def follow (fs : FileSystem) (place : Place) : List String → Except FileFault Place
  | [] => .ok place
  | component :: rest => do follow fs (← fs.enter place component) rest

/-- Where to start, and the components from there. -/
def components (fs : FileSystem) (path : String) : Place × List String :=
  match Text.splitAt '/' path with
  | "" :: rest => ([], rest)
  | cs => (fs.workingDirectory, cs)

def read (fs : FileSystem) (path : String) : Except FileFault Packed.Bytes := do
  let (start, cs) := fs.components path
  match fs.entry? (← fs.follow start cs) with
  | none => throw .missing
  | some .directory => throw .isDirectory
  | some (.file bytes) => return bytes

/-- Components without the slashes at their end, and whether there were any. -/
def trimSlashes (cs : List String) : List String × Bool :=
  let kept := (cs.reverse.dropWhile (· == "")).reverse
  (kept, kept.length < cs.length)

/-- A name with a slash behind it can only be that of a directory. -/
def write (fs : FileSystem) (path : String) (bytes : Packed.Bytes) :
    Except FileFault FileSystem := do
  let (start, cs) := fs.components path
  let (kept, slashed) := trimSlashes cs
  let place ← fs.follow start kept
  if slashed then throw .isDirectory
  match fs.entry? place with
  | some .directory => throw .isDirectory
  | _ => return { fs with entries := fs.entries.insert place (.file bytes) }

/-- Puts an entry below the working directory, with the directories that lead to it. -/
def place (fs : FileSystem) (names : List String) (entry : Entry) : FileSystem :=
  let above := (List.range names.length).map fun n => fs.workingDirectory ++ names.take n
  let withAbove := above.foldl
    (fun t d => if t.contains d then t else t.insert d .directory) fs.entries
  { fs with entries := withAbove.insert (fs.workingDirectory ++ names) entry }

end FileSystem
end CommandLine
end GrammarRecords
