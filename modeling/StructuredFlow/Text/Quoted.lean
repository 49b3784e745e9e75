import StructuredFlow.Text.Printable

/-
  Quoted text: a string between double quotes, on one line and in printable characters.
  The quote and the backslash are written behind a backslash, five characters have a short escape,
  and every other unprintable character is shown by its code in hexadecimal.
-/

namespace StructuredFlow.Text

/-- The written form of one character inside double quotes. -/
def escape (c : Char) : List Char :=
  match c with
  | '"' => ['\\', '"']
  | '\\' => ['\\', '\\']
  | '\n' => ['\\', 'n']
  | '\r' => ['\\', 'r']
  | '\t' => ['\\', 't']
  | '\x00' => ['\\', '0']
  | c =>
    if isPrintable c then [c]
    else ['\\', 'u', '\x7b'] ++ Nat.toDigits 16 c.toNat ++ ['\x7d']

/-- The text between double quotes, each character in its written form. -/
def quote (s : String) : String :=
  String.ofList ('"' :: (s.toList.flatMap escape ++ ['"']))

theorem toList_quote (s : String) :
    (quote s).toList = '"' :: (s.toList.flatMap escape ++ ['"']) := by
  simp [quote]

end StructuredFlow.Text
