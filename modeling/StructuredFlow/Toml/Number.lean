import StructuredFlow.Toml.Lexeme

/-
  Numbers and dates of a TOML document. Integers have 64 bits, a fraction must not be too large for
  the double-precision numbers, and a date must be one of the calendar.
-/

namespace StructuredFlow.Toml

open Reader

/-- Digits, with single underscores between them. -/
def digits (p : Char → Bool) : Reader (List Char) := do
  return (← satisfy p) :: (← many (satisfy p <|> (char '_' *> satisfy p)))

/-- A sign, if there is one; whether it is a minus. -/
def sign : Reader Bool := do
  match ← maybe (satisfy fun c => c == '+' || c == '-') with
  | some '-' => return true
  | _ => return false

/-- A decimal number with no needless zero in front. -/
def decimal : Reader (Bool × List Char) := do
  let negative ← sign
  match ← maybe (char '0') with
  | some _ => return (negative, ['0'])
  | none => return (negative, ← digits Char.isDigit)

/-- The number can be written with 64 bits, one of them for the sign. -/
def inRange (i : Int) : Bool :=
  Int64.minValue.toInt ≤ i && i ≤ Int64.maxValue.toInt

/-- An integer in a base that a letter behind a zero names. -/
def based (letter : Char) (base : Nat) (p : Char → Bool) : Reader Int := do
  char '0'
  char letter
  return (numberOf base (← digits p) : Nat)

def integer : Reader Int := do
  let i ← based 'x' 16 isHexDigit <|> based 'o' 8 (fun c => '0' ≤ c && c ≤ '7') <|>
    based 'b' 2 (fun c => c == '0' || c == '1') <|> (do
      let (negative, ds) ← decimal
      let n : Nat := numberOf 10 ds
      return if negative then -(n : Int) else n)
  if inRange i then return i else failure

/-- The number `m · 10 ^ e` rounds to infinity: it is at least halfway from the largest finite
double to the next power of two. -/
def isHuge (m : Nat) (e : Int) : Bool :=
  let magnitude := (Nat.toDigits 10 m).length + e
  if m = 0 || magnitude < 300 then false
  else if 320 < magnitude then true
  else
    let bound := Nat.pow 2 1024 - Nat.pow 2 970
    if 0 ≤ e then bound ≤ m * Nat.pow 10 e.toNat else bound * Nat.pow 10 (-e).toNat ≤ m

def exponent : Reader Int := do
  let _ ← satisfy fun c => c == 'e' || c == 'E'
  let negative ← sign
  let n : Nat := numberOf 10 (← digits Char.isDigit)
  return if negative then -(n : Int) else n

/-- A number with a fraction or an exponent. -/
def fraction : Reader Unit := do
  let (negative, whole) ← decimal
  let (part, e) ← (do return ([], ← exponent)) <|> (do
    char '.'
    let part ← digits Char.isDigit
    return (part, (← maybe exponent).getD 0))
  if !negative && isHuge (numberOf 10 (whole ++ part)) (e - part.length) then failure

def notFinite : Reader Unit := do
  let _ ← sign
  exact "inf" <|> exact "nan"

def float : Reader Unit :=
  fraction <|> notFinite

/-! ## Dates -/

/-- A number of exactly so many digits within bounds. -/
def field (width low high : Nat) : Reader Nat := do
  let n := numberOf 10 (← exactly width Char.isDigit)
  if low ≤ n && n ≤ high then return n else failure

def isLeapYear (year : Nat) : Bool :=
  year % 4 == 0 && (year % 100 != 0 || year % 400 == 0)

def daysInMonth (year month : Nat) : Nat :=
  if month == 2 then (if isLeapYear year then 29 else 28)
  else if [4, 6, 9, 11].contains month then 30
  else 31

def date : Reader Unit := do
  let year ← field 4 0 9999
  char '-'
  let month ← field 2 1 12
  char '-'
  let _ ← field 2 1 (daysInMonth year month)

def time : Reader Unit := do
  let _ ← field 2 0 23
  char ':'
  let _ ← field 2 0 59
  char ':'
  let _ ← field 2 0 60
  let _ ← maybe (char '.' *> satisfy Char.isDigit *> takeWhile Char.isDigit)

def offset : Reader Unit :=
  (do let _ ← satisfy fun c => c == 'Z' || c == 'z') <|> (do
    let _ ← satisfy fun c => c == '+' || c == '-'
    let _ ← field 2 0 23
    char ':'
    let _ ← field 2 0 59)

/-- A date, a time, or both, with an offset if both are there. -/
def dateTime : Reader Unit :=
  (do
    date
    let _ ← maybe (do
      let _ ← satisfy fun c => c == 'T' || c == 't' || c == ' '
      time
      maybe offset)) <|> time

end StructuredFlow.Toml
