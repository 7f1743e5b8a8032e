import GrammarRecords.Literal
import GrammarRecords.Main
import GrammarRecords.Proofs.Names.Search
import GrammarRecords.Proofs.Render.Escaping
import GrammarRecords.Proofs.Render.TypeNames
import GrammarRecords.Proofs.Render.FieldNames
import GrammarRecords.Proofs.Grammar.Reading
import GrammarRecords.Proofs.Packed.Fields
import GrammarRecords.Proofs.Packed.RoundTrip
import GrammarRecords.Proofs.Packed.Truncation
import GrammarRecords.Proofs.Literal.Strings
import GrammarRecords.Proofs.Literal.CodePoints
import GrammarRecords.Proofs.Text.Case
import GrammarRecords.Proofs.Model.Cycles
import GrammarRecords.Proofs.Shape.BinarySums
import GrammarRecords.Proofs.Render.TypeText
import GrammarRecords.Proofs.Render.Candidates
import GrammarRecords.Proofs.Declarations
import GrammarRecords.Proofs.Render.Containment
import GrammarRecords.Proofs.Render.UndeclaredNames
import GrammarRecords.Proofs.Render.Vocabulary
import GrammarRecords.Proofs.Render.TypeReadability
import GrammarRecords.Proofs.Render.ReservedWords
import GrammarRecords.Proofs.Shape.NormalForm
import GrammarRecords.Proofs.Shape.References
import GrammarRecords.Proofs.Text.Identifier
import GrammarRecords.Proofs.Record
import GrammarRecords.Proofs.Render.Identifiers
import GrammarRecords.Proofs.CommandLine.FileSystem
import GrammarRecords.Proofs.Outcome
import GrammarRecords.Proofs.Packed.Limits
import GrammarRecords.Proofs.Json.Size
import GrammarRecords.Proofs.Grammar.Size
import GrammarRecords.Proofs.CommandLine.PackedPath
import GrammarRecords.Proofs.Palette
import GrammarRecords.Proofs.Render.Colors
import GrammarRecords.Proofs.Json.Export
import GrammarRecords.Proofs.CommandLine.Printing
import GrammarRecords.Proofs.CommandLine.Atomicity
import GrammarRecords.Proofs.Grammar.Annotations
import GrammarRecords.Proofs.Model.CyclicRules
import GrammarRecords.Proofs.Render.RightNesting
import GrammarRecords.Proofs.Literal.UnicodeEscapes
import GrammarRecords.Proofs.Text.Conversion
import GrammarRecords.Proofs.Shape.Redundancy
import GrammarRecords.Proofs.Grammar.Lowering
import GrammarRecords.Proofs.Packed.Shortest
import GrammarRecords.Proofs.Render.RecordFields
import GrammarRecords.Proofs.Json.Spelling.Basic
import GrammarRecords.Proofs.Json.Spelling.Strings
import GrammarRecords.Proofs.Json.Spelling.Brackets
import GrammarRecords.Proofs.Json.Spelling.Numbers
import GrammarRecords.Proofs.Json.Spelling.Values
import GrammarRecords.Proofs.Json.Spelling.Skipping
import GrammarRecords.Proofs.Grammar.RuleText
import GrammarRecords.Proofs.Grammar.FileText
import GrammarRecords.Proofs.Grammar.Rearranging
import GrammarRecords.Proofs.Grammar.Repetition
import GrammarRecords.Proofs.CommandLine.Groups
import GrammarRecords.Proofs.Render.Renaming
import GrammarRecords.Proofs.CommandLine.OptionOrder
