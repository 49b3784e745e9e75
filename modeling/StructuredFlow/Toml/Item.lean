/-
  Contents of a TOML document, and the rules by which tables grow. A table may be named in several
  ways, by a header, on the way to another header, by a dotted key or in braces, and how it was
  first named decides what may be added to it later. Of fractions and dates only the form matters
  here, so nothing else is kept of them.
-/

namespace StructuredFlow.Toml

/-- How a table came about: by a header of its own, on the way to another header, by dotted keys,
or written in braces. -/
inductive Origin where
  | header
  | passing
  | dotted
  | braces
deriving DecidableEq, Repr, Inhabited

inductive Item where
  | string (s : String)
  | integer (i : Int)
  | float
  | boolean (b : Bool)
  | dateTime
  | array (items : List Item)
  | table (origin : Origin) (entries : List (String × Item))
  | tables (elements : List (List (String × Item)))
deriving Repr, Inhabited

abbrev Entries := List (String × Item)

namespace Entries

/-- Replaces the item of a key, or adds one at the end. -/
def set (key : String) (item : Item) : Entries → Entries
  | [] => [(key, item)]
  | e :: rest => if e.1 = key then (key, item) :: rest else e :: set key item rest

/-- Adds an item under a key that is not there yet. -/
def add? (key : String) (item : Item) (es : Entries) : Option Entries :=
  match es.lookup key with
  | some _ => none
  | none => some (set key item es)

/-- Changes the table at the end of a path, making tables on the way as needed. Only tables for
which `passes` holds are passed, and of an array of tables the last. -/
def descend (made : Origin) (passes : Origin → Bool) (change : Origin → Entries → Option Entries) :
    List String → Origin → Entries → Option Entries
  | [], origin, es => change origin es
  | key :: path, _, es =>
    match es.lookup key with
    | none => do
      let inner ← descend made passes change path made []
      return set key (.table made inner) es
    | some (.table origin inner) =>
      if passes origin then do
        let inner ← descend made passes change path origin inner
        return set key (.table origin inner) es
      else none
    | some (.tables elements) => do
      let last ← elements.getLast?
      let last ← descend made passes change path .header last
      return set key (.tables (elements.dropLast ++ [last])) es
    | some _ => none

/-- Adds a pair to a table. A dotted key adds to tables that dotted keys have made. -/
def addPair (origin : Origin) (es : Entries) (pair : List String × String × Item) :
    Option Entries :=
  let (path, key, item) := pair
  let fits : Origin → Bool := fun o => path.isEmpty || o == .dotted
  descend .dotted (fun o => o == .passing || o == .dotted)
    (fun o es => if fits o then add? key item es else none) path origin es

/-- Adds pairs in their order. -/
def addPairs (origin : Origin) (es : Entries) (pairs : List (List String × String × Item)) :
    Option Entries :=
  pairs.foldlM (addPair origin) es

end Entries

/-- A part of a document: the header, which may begin an element of an array of tables, and the
pairs below it. -/
structure Section where
  path : List String
  key : String
  isElement : Bool
  pairs : List (List String × String × Item)
deriving Repr, Inhabited

namespace Section

/-- Adds a section to a document. A header makes a table, or opens one that was only passed
before. -/
def addTo (s : Section) (es : Entries) : Option Entries :=
  Entries.descend .passing (fun o => o != .braces) (fun _ es => inTable es) s.path .header es
where
  inTable (es : Entries) : Option Entries :=
    if s.isElement then
      match es.lookup s.key with
      | none => do return es.set s.key (.tables [← Entries.addPairs .header [] s.pairs])
      | some (.tables elements) => do
        return es.set s.key (.tables (elements ++ [← Entries.addPairs .header [] s.pairs]))
      | some _ => none
    else
      match es.lookup s.key with
      | none => do return es.set s.key (.table .header (← Entries.addPairs .header [] s.pairs))
      | some (.table .passing inner) => do
        return es.set s.key (.table .header (← Entries.addPairs .header inner s.pairs))
      | some _ => none

end Section

end StructuredFlow.Toml
