/-
Case conversion of identifiers.  Only ASCII letters change case, and only the
three separators `_`, `-` and `.` divide words, so both conversions are
defined on the list of characters by one pass from the left.
-/

namespace GrammarRecords
namespace Text

def isSeparator (c : Char) : Bool :=
  c == '_' || c == '-' || c == '.'

/-- Letters of both cases and no separator: the humps already divide the words. -/
def hasHumps (cs : List Char) : Bool :=
  !cs.any isSeparator && cs.any Char.isLower && cs.any Char.isUpper

def capitalize : List Char → List Char
  | [] => []
  | c :: cs => c.toUpper :: cs

/-- Drops the separators; a letter is upper case at the start of a word only. -/
def joinWords : Bool → List Char → List Char
  | _, [] => []
  | atStart, c :: cs =>
      if isSeparator c then joinWords true cs
      else (if atStart then c.toUpper else c.toLower) :: joinWords false cs

def pascalChars (cs : List Char) : List Char :=
  if hasHumps cs then capitalize cs else joinWords true cs

/-- Pascal case.  A name with humps keeps them and gets a capital first letter. -/
def pascalCase (s : String) : String :=
  String.ofList (pascalChars s.toList)

/--
An upper-case letter opens a word after a lower-case letter or a digit, and as
the last capital of an acronym that a lower-case letter follows.
-/
def opensWord (before after : Option Char) : Bool :=
  before.any (fun c => c.isLower || c.isDigit) ||
    (before.any Char.isUpper && after.any Char.isLower)

/--
Scans with the character read last and whether the text written so far ends in
an underscore, because no rule here writes an underscore after another one.
-/
def snakeFrom : Option Char → Bool → List Char → List Char
  | _, _, [] => []
  | before, underscored, c :: cs =>
      if c == '-' || c == '.' then
        if underscored then snakeFrom (some c) true cs
        else '_' :: snakeFrom (some c) true cs
      else if !c.isUpper then
        c :: snakeFrom (some c) (c == '_') cs
      else if opensWord before cs.head? && !underscored then
        '_' :: c.toLower :: snakeFrom (some c) false cs
      else
        c.toLower :: snakeFrom (some c) false cs

def snakeChars (cs : List Char) : List Char :=
  snakeFrom none false cs

/-- Snake case.  `-` and `.` become underscores. -/
def snakeCase (s : String) : String :=
  String.ofList (snakeChars s.toList)

end Text
end GrammarRecords
