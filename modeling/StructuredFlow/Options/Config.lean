import StructuredFlow.Options
import StructuredFlow.Toml.Document

/-
  Options from a configuration text. They stand in the table `builder`, where nothing else may
  stand; the rest of the text may hold anything.
-/

namespace StructuredFlow

namespace Options

/-- The option that a key of the table sets. -/
def setKey (o : Options) (entry : String × Toml.Item) : Option Options :=
  match entry with
  | ("name", .string s) => some { o with name := s }
  | ("allow_captures", .boolean b) => some { o with allowCaptures := b }
  | _ => none

/-- The options that a list gives by position, as far as it goes. -/
def ofItems? : List Toml.Item → Option Options
  | [] => some default
  | [.string s] => some { default with name := s }
  | .string s :: .boolean b :: _ => some ⟨s, b⟩
  | _ => none

/-- The options that an item stands for. -/
def ofItem? : Toml.Item → Option Options
  | .table _ es => es.foldlM setKey default
  | .array items => ofItems? items
  | _ => none

/-- Reads the options of a configuration text. -/
def ofToml? (text : String) : Option Options := do
  match (← Toml.read? text).lookup "builder" with
  | some item => ofItem? item
  | none => return default

end Options

end StructuredFlow
