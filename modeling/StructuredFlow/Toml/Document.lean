import StructuredFlow.Toml.Item
import StructuredFlow.Toml.Number

/-
  Whole TOML documents: values, which may nest, pairs of keys and values, and sections with
  headers. Reading fails on any text that is not a document.
-/

namespace StructuredFlow.Toml

open Reader

/-- A pair, with a reader for its value. -/
def pair (value : Reader Item) : Reader (List String × String × Item) := do
  let (path, key) ← dottedKey
  char '='
  blanks
  return (path, key, ← value)

def array (value : Reader Item) : Reader Item := do
  char '['
  let items ← maybe (separated (gap *> value <* gap) (char ',') <* maybe (char ','))
  gap
  char ']'
  return .array (items.getD [])

def bracesTable (value : Reader Item) : Reader Item := do
  char '{'
  let pairs ← maybe (separated (pair value <* blanks) (char ','))
  blanks
  char '}'
  match Entries.addPairs .braces [] (pairs.getD []) with
  | some es => return .table .braces es
  | none => failure

def scalar : Reader Item :=
  (Item.string <$> string) <|> (do dateTime; return .dateTime) <|> (do float; return .float) <|>
    (Item.integer <$> integer) <|> (do exact "true"; return .boolean true) <|>
    (do exact "false"; return .boolean false)

/-- A value with at most so many arrays and tables around each other in it. -/
def value : Nat → Reader Item
  | 0 => scalar
  | depth + 1 => array (value depth) <|> bracesTable (value depth) <|> scalar

/-- A line with a pair. -/
def pairLine : Reader (List String × String × Item) :=
  pair (value (depthLimit - 1)) <* restOfLine

/-- The line of a header: its key, and whether it begins an element of an array. -/
def headerLine : Reader (List String × String × Bool) := do
  let (path, key, isElement) ← (do
      exact "[["
      let (path, key) ← dottedKey
      exact "]]"
      return (path, key, true)) <|> (do
      char '['
      let (path, key) ← dottedKey
      char ']'
      return (path, key, false))
  restOfLine
  return (path, key, isElement)

/-- Empty lines, and blanks at the start of a line. -/
def emptyLines : Reader Unit := do
  blanks
  let _ ← many ((newline <|> (comment *> lineEnd)) *> blanks)

/-- Pairs, one below the other. -/
def pairLines : Reader (List (List String × String × Item)) :=
  emptyLines *> many (pairLine <* emptyLines)

def headedLines : Reader Section := do
  let (path, key, isElement) ← headerLine
  return ⟨path, key, isElement, ← pairLines⟩

/-- The contents of a document. A mark of the byte order may come first. -/
def document : Reader Entries := do
  let _ ← maybe (char '\uFEFF')
  let pairs ← pairLines
  let sections ← many headedLines
  atEnd
  match Entries.addPairs .header [] pairs >>= (sections.foldlM fun es s => s.addTo es) with
  | some es => return es
  | none => failure

/-- Reads a document. -/
def read? (text : String) : Option Entries :=
  (document text.toList).map Prod.fst

end StructuredFlow.Toml
