/-
The words of a command line from left to right.

A value that is a word of its own is looked at only when the next thing that
is known comes, or the line ends; something unknown before that is reported
in its place.  An attached value is looked at once.  Behind a lone `--` every
word is a path.
-/
import GrammarRecords.CommandLine.Arguments

namespace GrammarRecords
namespace CommandLine

inductive Word where
  | separator
  | long (name : String) (attached : Option String)
  | letters (cluster : List Char)
  | plain
deriving DecidableEq, Repr

/-- A dash alone is a plain word. -/
def Word.classify (word : String) : Word :=
  match word.toList with
  | ['-', '-'] => .separator
  | '-' :: '-' :: cs =>
      match cs.dropWhile (· != '=') with
      | [] => .long (String.ofList cs) none
      | _ :: value =>
          .long (String.ofList (cs.takeWhile (· != '='))) (some (String.ofList value))
  | '-' :: c :: cs => .letters (c :: cs)
  | _ => .plain

/-- A pending setting comes with the word that is its value, once that has been met. -/
structure Scan where
  choices : Choices
  pending : Option (Setting × Option String)
  pathsOnly : Bool
deriving DecidableEq, Repr

namespace Scan

def start : Scan := ⟨.none, none, false⟩

def resolve (s : Scan) : Except UsageError Scan :=
  match s.pending with
  | none => .ok s
  | some (_, none) => .error .badValue
  | some (setting, some value) =>
      return { s with choices := ← s.choices.set setting value, pending := none }

def turnOn (s : Scan) (switch : Switch) : Except UsageError Scan := do
  let s ← s.resolve
  return { s with choices := ← s.choices.turnOn switch }

def setAttached (s : Scan) (setting : Setting) (value : String) : Except UsageError Scan := do
  let s ← s.resolve
  return { s with choices := ← s.choices.set setting value }

def await (s : Scan) (setting : Setting) : Except UsageError Scan := do
  let s ← s.resolve
  return { s with pending := some (setting, none) }

def hasPath (s : Scan) : Bool :=
  s.choices.grammar.isSome || s.pending.any fun p => p.1 = .grammar

def path (s : Scan) (word : String) : Except UsageError Scan :=
  if s.hasPath then .error .unknownArgument
  else do
    let s ← s.resolve
    return { s with pending := some (.grammar, some word) }

/-- Switches in a row; a setting takes what follows its letter, without one equals sign. -/
def cluster (items : List Item) (s : Scan) : List Char → Except UsageError Scan
  | [] => .ok s
  | c :: rest =>
      match findLetter? items c with
      | none => .error .unknownArgument
      | some (.switch switch) => do cluster items (← s.turnOn switch) rest
      | some (.setting setting) =>
          match rest with
          | [] => s.await setting
          | '=' :: value => s.setAttached setting (String.ofList value)
          | value => s.setAttached setting (String.ofList value)

def step (items : List Item) (s : Scan) (word : String) : Except UsageError Scan :=
  if s.pathsOnly then s.path word
  else
    match Word.classify word with
    | .separator => .ok { s with pathsOnly := true }
    | .long name attached =>
        match findLong? items name, attached with
        | none, _ => .error .unknownArgument
        | some (.switch _), some _ => .error .unexpectedValue
        | some (.switch switch), none => s.turnOn switch
        | some (.setting setting), some value => s.setAttached setting value
        | some (.setting setting), none => s.await setting
    | .letters cs => cluster items s cs
    | .plain =>
        match s.pending with
        | some (setting, none) => .ok { s with pending := some (setting, some word) }
        | _ => s.path word

end Scan

def readChoices (verb : Verb) (words : List String) : Except UsageError Choices := do
  let s ← words.foldlM (Scan.step verb.items) .start
  return (← s.resolve).choices

/-- The verbosity before the verb counts only if there is none after it. -/
def readVerb (verb : Verb) (verbose : Nat) (words : List String) :
    Except UsageError Invocation := do
  let c ← readChoices verb words
  return ⟨if c.verbose = 0 then verbose else c.verbose, ← c.command verb⟩

def isVerbName (word : String) : Bool :=
  word = "help" || (Verb.ofName? word).isSome

def readHelp (words : List String) : UsageError :=
  match words with
  | [] => .helpRequested
  | [word] => if isVerbName word then .helpRequested else .unknownVerb
  | _ => .unknownVerb

def readEnd (verbose : Nat) : UsageError :=
  if verbose = 0 then .nothingGiven else .missingVerb

/-- Reads from the start of the line; the scan holds the switches before the verb. -/
def readLine (s : Scan) : List String → Except UsageError Invocation
  | [] => .error (readEnd s.choices.verbose)
  | word :: rest =>
      match Word.classify word with
      | .plain =>
          match Verb.ofName? word with
          | some verb => readVerb verb s.choices.verbose rest
          | none => .error (if word = "help" then readHelp rest else .unknownVerb)
      | .separator =>
          match rest with
          | [] => .error (readEnd s.choices.verbose)
          | next :: _ => .error (if isVerbName next then .unknownArgument else .unknownVerb)
      | _ => do readLine (← s.step Item.common word) rest

def read (words : List String) : Except UsageError Invocation :=
  readLine .start words

end CommandLine
end GrammarRecords
