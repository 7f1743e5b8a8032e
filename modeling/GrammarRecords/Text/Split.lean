/-
Texts that are cut at a separator.
-/

namespace GrammarRecords
namespace Text

/-- What stands between the separators, in front of the first and behind the last. -/
def splitAt (separator : Char) (s : String) : List String :=
  (s.toList.splitOn separator).map String.ofList

end Text
end GrammarRecords
