/-
What a command line can say.

There are three verbs.  A setting takes a value, a switch takes none; the path
of the grammar is the only setting without a name.  Every verb knows the
switches for verbosity and help.
-/
import GrammarRecords.Render.Dialect
import GrammarRecords.Text.Case
import GrammarRecords.Text.Split

namespace GrammarRecords
namespace CommandLine

inductive Verb where
  | shapes
  | records
  | pack
deriving DecidableEq, Repr

inductive Setting where
  | grammar
  | dialect
  | format
  | indirection
  | color
  | output
  | reserved
  | derive
deriving DecidableEq, Repr

inductive Switch where
  | noDerive
  | noHeader
  | verbose
  | help
deriving DecidableEq, Repr

inductive Item where
  | setting (s : Setting)
  | switch (s : Switch)
deriving DecidableEq, Repr

inductive Format where
  | text
  | json
deriving DecidableEq, Repr, Inhabited

inductive ColorChoice where
  | auto
  | always
  | never
deriving DecidableEq, Repr, Inhabited

inductive UsageError where
  | unknownArgument
  | unknownVerb
  | badValue
  | conflict
  | missingArgument
  | missingVerb
  | unexpectedValue
  | helpRequested
  | nothingGiven
deriving DecidableEq, Repr

namespace Verb

def all : List Verb := [shapes, records, pack]

def name : Verb → String
  | shapes => "shapes"
  | records => "records"
  | pack => "pack"

def ofName? (s : String) : Option Verb := all.find? fun v => v.name = s

end Verb

namespace Item

def longName? : Item → Option String
  | setting .grammar => none
  | setting .dialect => some "dialect"
  | setting .format => some "format"
  | setting .indirection => some "indirection"
  | setting .color => some "color"
  | setting .output => some "output"
  | setting .reserved => some "reserved"
  | setting .derive => some "derive"
  | switch .noDerive => some "no-derive"
  | switch .noHeader => some "no-header"
  | switch .verbose => some "verbose"
  | switch .help => some "help"

def letter? : Item → Option Char
  | setting .dialect => some 'd'
  | setting .output => some 'o'
  | switch .verbose => some 'v'
  | switch .help => some 'h'
  | _ => none

/-- What may stand before the verb. -/
def common : List Item := [switch .verbose, switch .help]

end Item

def Verb.items : Verb → List Item
  | .shapes =>
      [.setting .grammar, .setting .dialect, .setting .format, .setting .output,
        .setting .color] ++ Item.common
  | .records =>
      [.setting .grammar, .setting .dialect, .setting .reserved, .setting .derive,
        .switch .noDerive, .setting .indirection, .switch .noHeader, .setting .format,
        .setting .output, .setting .color] ++ Item.common
  | .pack => [.setting .grammar, .setting .output] ++ Item.common

def findLong? (items : List Item) (name : String) : Option Item :=
  items.find? fun i => i.longName? = some name

def findLetter? (items : List Item) (letter : Char) : Option Item :=
  items.find? fun i => i.letter? = some letter

def Format.ofName? : String → Option Format
  | "text" => some .text
  | "json" => some .json
  | _ => none

def ColorChoice.ofName? : String → Option ColorChoice
  | "auto" => some .auto
  | "always" => some .always
  | "never" => some .never
  | _ => none

def indirectionOfName? : String → Option Indirection
  | "box" => some .box
  | "rc" => some .rc
  | "arc" => some .arc
  | _ => none

/-- A path has to have a character. -/
def pathOfWord? (word : String) : Option String :=
  if word = "" then none else some word

/-- The words between commas, without empty ones. -/
def wordsOf (value : String) : List String :=
  (Text.splitAt ',' value).filter fun w => w ≠ ""

/-- What has been said so far; a list setting that was given is there even if it is empty. -/
structure Choices where
  grammar : Option String
  dialect : Option Dialect
  format : Option Format
  indirection : Option Indirection
  color : Option ColorChoice
  output : Option String
  reserved : Option (List String)
  derive : Option (List String)
  noDerive : Bool
  noHeader : Bool
  verbose : Nat
deriving DecidableEq, Repr

namespace Choices

def none : Choices :=
  ⟨.none, .none, .none, .none, .none, .none, .none, .none, false, false, 0⟩

/-- A second value of a setting is refused before it is looked at. -/
def once {α : Type} (before value : Option α) : Except UsageError (Option α) :=
  if before.isSome then .error .conflict
  else if value.isNone then .error .badValue
  else .ok value

def more (before : Option (List String)) (value : String) : Option (List String) :=
  some (before.getD [] ++ wordsOf value)

def set (c : Choices) (s : Setting) (value : String) : Except UsageError Choices :=
  match s with
  | .grammar => return { c with grammar := ← once c.grammar (pathOfWord? value) }
  | .dialect => return { c with dialect := ← once c.dialect (Dialect.ofName? value) }
  | .format => return { c with format := ← once c.format (Format.ofName? value) }
  | .indirection =>
      return { c with indirection := ← once c.indirection (indirectionOfName? value) }
  | .color => return { c with color := ← once c.color (ColorChoice.ofName? value) }
  | .output => return { c with output := ← once c.output (pathOfWord? value) }
  | .reserved => return { c with reserved := more c.reserved value }
  | .derive => return { c with derive := more c.derive value }

/-- Verbosity is counted up to here; from then on a repeated switch changes nothing. -/
def maxVerbosity : Nat := 255

/-- Only the switch for verbosity may be repeated. -/
def turnOn (c : Choices) (s : Switch) : Except UsageError Choices :=
  match s with
  | .noDerive => if c.noDerive then .error .conflict else .ok { c with noDerive := true }
  | .noHeader => if c.noHeader then .error .conflict else .ok { c with noHeader := true }
  | .verbose => .ok { c with verbose := min (c.verbose + 1) maxVerbosity }
  | .help => .error .helpRequested

end Choices

structure ShapesCommand where
  grammar : String
  dialect : Dialect
  format : Format
  output : Option String
  colorChoice : ColorChoice
deriving DecidableEq, Repr

structure RecordsCommand where
  grammar : String
  dialect : Dialect
  reserved : List String
  derive : Option (List String)
  noDerive : Bool
  indirection : Indirection
  header : Bool
  format : Format
  output : Option String
  colorChoice : ColorChoice
deriving DecidableEq, Repr

structure PackCommand where
  grammar : String
  output : String
deriving DecidableEq, Repr

inductive Command where
  | shapes (c : ShapesCommand)
  | records (c : RecordsCommand)
  | pack (c : PackCommand)
deriving DecidableEq, Repr

structure Invocation where
  verbose : Nat
  command : Command
deriving DecidableEq, Repr

def ColorChoice.colorizes (terminal : Bool) : ColorChoice → Bool
  | .auto => terminal
  | .always => true
  | .never => false

/-- Colors are a matter of the output, which may be a terminal; a file never gets them. -/
def usesColor (terminal : Bool) (output : Option String) (choice : ColorChoice) : Bool :=
  output.isNone && choice.colorizes terminal

def ShapesCommand.color (terminal : Bool) (c : ShapesCommand) : Bool :=
  usesColor terminal c.output c.colorChoice

def RecordsCommand.color (terminal : Bool) (c : RecordsCommand) : Bool :=
  usesColor terminal c.output c.colorChoice

/-- The traits to derive, or none for the usual ones. -/
def RecordsCommand.derives (c : RecordsCommand) : Option (List String) :=
  if c.noDerive then some [] else c.derive.map fun traits => traits.map Text.pascalCase

namespace Choices

def command (c : Choices) : Verb → Except UsageError Command
  | .shapes =>
      match c.grammar with
      | some grammar =>
          .ok <| .shapes ⟨grammar, c.dialect.getD default, c.format.getD default, c.output,
            c.color.getD default⟩
      | .none => .error .missingArgument
  | .records =>
      if c.noDerive && c.derive.isSome then .error .conflict
      else
        match c.grammar with
        | some grammar =>
            .ok <| .records ⟨grammar, c.dialect.getD default, c.reserved.getD [], c.derive,
              c.noDerive, c.indirection.getD default, !c.noHeader, c.format.getD default,
              c.output, c.color.getD default⟩
        | .none => .error .missingArgument
  | .pack =>
      match c.grammar, c.output with
      | some grammar, some output => .ok (.pack ⟨grammar, output⟩)
      | _, _ => .error .missingArgument

end Choices
end CommandLine
end GrammarRecords
