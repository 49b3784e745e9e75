/-
  Readers of text: a reader takes something from the front of the text, or fails. An alternative
  starts again where the first choice started.
-/

namespace StructuredFlow.Toml

abbrev Reader := StateT (List Char) Option

namespace Reader

variable {α β : Type}

/-- One character with a property. -/
def satisfy (p : Char → Bool) : Reader Char
  | c :: rest => if p c then some (c, rest) else none
  | [] => none

def char (c : Char) : Reader Unit := do
  let _ ← satisfy (· == c)

/-- A given text. -/
def exact (s : String) : Reader Unit :=
  s.toList.forM char

/-- All characters up to the first without the property. -/
def takeWhile (p : Char → Bool) : Reader (List Char) :=
  fun cs => some (cs.span p)

def atEnd : Reader Unit
  | [] => some ((), [])
  | _ :: _ => none

/-- What the reader takes, if it takes anything; otherwise nothing is taken. -/
def maybe (x : Reader α) : Reader (Option α) := fun cs =>
  match x cs with
  | some (a, rest) => some (some a, rest)
  | none => some (none, cs)

/-- The reader as often as it succeeds. Each time has to take a character at least. -/
def many (x : Reader α) : Reader (List α) := fun cs => go cs.length cs
where
  go : Nat → Reader (List α)
    | 0, cs => some ([], cs)
    | fuel + 1, cs =>
      match x cs with
      | none => some ([], cs)
      | some (a, rest) => (go fuel rest).map fun (as, rest) => (a :: as, rest)

/-- One or more, with separators between them. -/
def separated (x : Reader α) (separator : Reader β) : Reader (List α) := do
  return (← x) :: (← many (separator *> x))

/-- Exactly so many characters with a property. -/
def exactly (n : Nat) (p : Char → Bool) : Reader (List Char) :=
  (List.replicate n ()).mapM fun _ => satisfy p

/-- A reader that succeeds if the text goes on as another reader wants it, and takes nothing. -/
def ahead (x : Reader α) : Reader Unit := fun cs =>
  (x cs).map fun _ => ((), cs)

end Reader

end StructuredFlow.Toml
