import StructuredFlow.Toml.Reader

/-
  The words of a TOML document: blanks, line ends and comments, strings of four kinds, and keys.
-/

namespace StructuredFlow.Toml

open Reader

/-! ## Blanks -/

def isBlank (c : Char) : Bool :=
  c == ' ' || c == '\t'

/-- A character that may stand in a comment: no control character but the tab. -/
def isVisible (c : Char) : Bool :=
  c == '\t' || (0x20 ≤ c.toNat && c.toNat != 0x7f)

def blanks : Reader Unit := do
  let _ ← takeWhile isBlank

/-- A line feed, perhaps with a carriage return before it. -/
def newline : Reader Unit :=
  char '\n' <|> exact "\x0d\n"

def comment : Reader Unit := do
  char '#'
  let _ ← takeWhile isVisible

/-- The end of a line, or of the text. -/
def lineEnd : Reader Unit :=
  newline <|> atEnd

/-- What may stand between the last word of a line and its end. -/
def restOfLine : Reader Unit := do
  blanks
  let _ ← maybe comment
  lineEnd

/-- Blanks, line ends and comments. -/
def gap : Reader Unit := do
  blanks
  let _ ← many (maybe comment *> newline *> blanks)

/-! ## Strings -/

def isHexDigit (c : Char) : Bool :=
  c.isDigit || ('a' ≤ c && c ≤ 'f') || ('A' ≤ c && c ≤ 'F')

def digitValue (c : Char) : Nat :=
  if c.isDigit then c.toNat - '0'.toNat
  else if 'a' ≤ c then c.toNat - 'a'.toNat + 10
  else c.toNat - 'A'.toNat + 10

/-- The number that digits write in a base. -/
def numberOf (base : Nat) (digits : List Char) : Nat :=
  digits.foldl (fun n c => n * base + digitValue c) 0

/-- A character given by its code in so many hexadecimal digits. -/
def codePoint (digits : Nat) : Reader Char := do
  let n := numberOf 16 (← exactly digits isHexDigit)
  if n.isValidChar then return Char.ofNat n else failure

/-- A character behind a backslash. -/
def escaped : Reader Char := do
  char '\\'
  match ← satisfy fun _ => true with
  | 'b' => return '\x08'
  | 't' => return '\t'
  | 'n' => return '\n'
  | 'f' => return '\x0c'
  | 'r' => return '\x0d'
  | '"' => return '"'
  | '\\' => return '\\'
  | 'u' => codePoint 4
  | 'U' => codePoint 8
  | _ => failure

def plainBasic : Reader Char :=
  satisfy fun c => isVisible c && c != '"' && c != '\\'

def plainLiteral : Reader Char :=
  satisfy fun c => isVisible c && c != '\''

def basicString : Reader String := do
  char '"'
  let cs ← many (plainBasic <|> escaped)
  char '"'
  return String.ofList cs

def literalString : Reader String := do
  char '\''
  let cs ← many plainLiteral
  char '\''
  return String.ofList cs

/-- A line end inside of a string is one line feed, however it is written. -/
def lineFeed : Reader (List Char) := do
  newline
  return ['\n']

/-- A backslash at the end of a line, with all blanks and line ends that follow; it stands for
nothing. -/
def joinedLines : Reader (List Char) := do
  char '\\'
  blanks
  newline
  let _ ← many (newline <|> (do let _ ← satisfy isBlank))
  return []

/-- A string of several lines between three quotes. A single quote or two may stand in it, also
right before the closing three. -/
def multiline (quote : Char) (part : Reader (List Char)) : Reader String := do
  let three := do char quote; char quote; char quote
  three
  let _ ← maybe newline
  let inner := do
    let quotes ← (do char quote; char quote; ahead part; return [quote, quote]) <|>
      (do char quote; ahead part; return [quote])
    return quotes ++ (← part)
  let cs ← many (part <|> inner)
  let last ← (do char quote; char quote; ahead three; return [quote, quote]) <|>
    (do char quote; ahead three; return [quote]) <|> return []
  three
  return String.ofList (cs.flatten ++ last)

def multilineBasic : Reader String :=
  multiline '"'
    (((· :: []) <$> plainBasic) <|> joinedLines <|> ((· :: []) <$> escaped) <|> lineFeed)

def multilineLiteral : Reader String :=
  multiline '\'' (((· :: []) <$> plainLiteral) <|> lineFeed)

def string : Reader String :=
  multilineBasic <|> basicString <|> multilineLiteral <|> literalString

/-! ## Keys -/

def isBare (c : Char) : Bool :=
  c.isAlphanum || c == '_' || c == '-'

def bareKey : Reader String := do
  return String.ofList ((← satisfy isBare) :: (← takeWhile isBare))

/-- The number from which on a nest of values, or a key with that many parts, is too deep. -/
def depthLimit : Nat := 80

/-- The parts of a key, the last one by itself. -/
def dottedKey : Reader (List String × String) := do
  let parts ← separated (blanks *> (basicString <|> literalString <|> bareKey) <* blanks) (char '.')
  match parts.getLast? with
  | some last => if parts.length < depthLimit then return (parts.dropLast, last) else failure
  | none => failure

end StructuredFlow.Toml
