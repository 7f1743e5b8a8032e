/-
Reserved words, and how a dialect writes an identifier that is one.

A set of words is kept as an ascending list without repetitions, in the order
of code points, which is also the order in which the words are listed.
-/
import GrammarRecords.Render.Dialect

namespace GrammarRecords

/-- Adds a word where it belongs, unless it is there. -/
def addWord (word : String) : List String → List String
  | [] => [word]
  | w :: ws =>
      if word = w then w :: ws
      else if word < w then word :: w :: ws
      else w :: addWord word ws

theorem mem_addWord {word x : String} {ws : List String} :
    x ∈ addWord word ws ↔ x = word ∨ x ∈ ws := by
  induction ws with
  | nil => simp [addWord]
  | cons w ws ih =>
      unfold addWord
      split
      · rename_i h
        subst h
        simp
      · split
        · simp
        · simp only [List.mem_cons, ih]
          exact or_left_comm

theorem ascending_addWord {word : String} {ws : List String}
    (h : ws.Pairwise (· < ·)) : (addWord word ws).Pairwise (· < ·) := by
  induction ws with
  | nil => simp [addWord]
  | cons w ws ih =>
      have hw := List.pairwise_cons.mp h
      unfold addWord
      split
      · exact h
      · rename_i ne
        split
        · rename_i lt
          refine List.pairwise_cons.mpr ⟨?_, h⟩
          intro x hx
          rcases List.mem_cons.mp hx with rfl | hx
          · exact lt
          · exact String.lt_trans lt (hw.1 x hx)
        · rename_i nlt
          refine List.pairwise_cons.mpr ⟨?_, ih hw.2⟩
          intro x hx
          rcases mem_addWord.mp hx with rfl | hx
          · exact Std.lt_of_le_of_ne (String.not_lt.mp nlt) (fun e => ne e.symm)
          · exact hw.1 x hx

/-- A finite set of words that may not stand as identifiers. -/
structure Keywords where
  words : List String
  ascending : words.Pairwise (· < ·)
deriving DecidableEq

namespace Keywords

def empty : Keywords := ⟨[], .nil⟩

instance : Inhabited Keywords := ⟨empty⟩

def contains (ks : Keywords) (word : String) : Bool :=
  decide (word ∈ ks.words)

def insert (ks : Keywords) (word : String) : Keywords :=
  ⟨addWord word ks.words, ascending_addWord ks.ascending⟩

def insertAll (ks : Keywords) (words : List String) : Keywords :=
  words.foldl insert ks

def ofList (words : List String) : Keywords :=
  empty.insertAll words

def size (ks : Keywords) : Nat := ks.words.length

def isEmpty (ks : Keywords) : Bool := ks.words.isEmpty

@[simp] theorem contains_insert (ks : Keywords) (word x : String) :
    (ks.insert word).contains x = (decide (x = word) || ks.contains x) := by
  simp [contains, insert, mem_addWord]

def javaWords : List String :=
  ["abstract", "assert", "boolean", "break", "byte", "case", "catch", "char", "class",
    "const", "continue", "default", "do", "double", "else", "enum", "extends", "false",
    "final", "finally", "float", "for", "if", "implements", "import", "instanceof", "int",
    "interface", "long", "native", "new", "null", "package", "private", "protected",
    "public", "return", "short", "static", "strictfp", "super", "switch", "synchronized",
    "this", "throw", "throws", "transient", "true", "try", "void", "volatile", "while"]

def scalaWords : List String :=
  ["def", "forSome", "implicit", "lazy", "match", "object", "override", "sealed", "trait",
    "type", "val", "var", "with", "yield"]

/-- Names that a generated Scala parser defines itself. -/
def scalaParserNames : List String :=
  ["rule", "parserRule"]

def rustWords : List String :=
  ["as", "break", "const", "continue", "crate", "else", "enum", "extern", "false", "fn",
    "for", "if", "impl", "in", "let", "loop", "match", "mod", "move", "mut", "pub", "ref",
    "return", "self", "Self", "static", "struct", "super", "trait", "true", "type",
    "unsafe", "use", "where", "while", "async", "await", "dyn", "abstract", "become", "box",
    "do", "final", "gen", "macro", "override", "priv", "try", "typeof", "unsized",
    "virtual", "yield"]

/-- Rust keywords that have no raw form. -/
def rustUnrawable : List String :=
  ["crate", "self", "Self", "super"]

/-- The reserved words of a dialect; the generic one has none. -/
def ofDialect : Dialect → Keywords
  | .generic => empty
  | .scala => ofList (javaWords ++ scalaWords ++ scalaParserNames)
  | .rust => ofList rustWords

/-- Words that a raw identifier can be made of. -/
def isPlainWord (word : String) : Bool :=
  match word.toList with
  | [] => false
  | c :: cs =>
      (c.isAlpha || c == '_') && cs.all fun d => d.isAlphanum || d == '_'

/-- Rewrites a reserved word so that it can stand as an identifier. -/
def escape (dialect : Dialect) (ks : Keywords) (word : String) : String :=
  if ks.contains word then
    match dialect with
    | .scala => "`" ++ word ++ "`"
    | .rust =>
        if word ∉ rustUnrawable ∧ isPlainWord word then "r#" ++ word else word ++ "_"
    | .generic => word ++ "_"
  else word

end Keywords
end GrammarRecords
