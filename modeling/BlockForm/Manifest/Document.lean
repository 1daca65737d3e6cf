/-!
# BlockForm.Manifest.Document — the tables of a configuration document

A TOML document is a table of tables.  Each table remembers how it came to be, since that decides what may still
be added to it: a header may name a table once, a dotted key may extend only tables that no header has named,
and an inline table is closed.
-/

namespace BlockForm

/-- How a table came to be. -/
inductive TableOrigin where
  /-- By its own header, or as the document itself. -/
  | header
  /-- On the way to a table that a header names. -/
  | passing
  /-- On the way to a value that a dotted key names. -/
  | dotted
  /-- Between braces. -/
  | inline
  deriving DecidableEq

/-- No header and no braces have named the table yet. -/
def TableOrigin.isOpen : TableOrigin → Bool
  | passing | dotted => true
  | header | inline => false

/-- A value of a document.  Numbers and dates are told apart from other values but not kept. -/
inductive DocumentValue where
  | text (content : String)
  | bool (value : Bool)
  | number
  | date
  | array (items : List DocumentValue)
  | table (origin : TableOrigin) (entries : List (String × DocumentValue))
  /-- The tables that a doubled header has started, the last one being the one that can grow. -/
  | tables (earlier : List (List (String × DocumentValue))) (last : List (String × DocumentValue))

/-- The entries of a table, in the order they were made. -/
abbrev DocumentEntries := List (String × DocumentValue)

namespace DocumentEntries

/-- The entries with the value of a key set. -/
def put (entries : DocumentEntries) (key : String) (value : DocumentValue) : DocumentEntries :=
  if entries.any fun e => e.1 == key then
    entries.map fun e => if e.1 == key then (key, value) else e
  else entries ++ [(key, value)]

/-- Changes the table at the end of a path; tables that are missing on the way are made.  `dotted` tells a dotted
key from a header.  The change is given the origin of the table it is made in. -/
def changeAt (dotted : Bool) (change : TableOrigin → DocumentEntries → Option DocumentEntries) :
    (path : List String) → TableOrigin → DocumentEntries → Option DocumentEntries
  | [], origin, entries => change origin entries
  | key :: path, _, entries =>
    match List.lookup key entries with
    | none => do
      let origin := if dotted then TableOrigin.dotted else .passing
      let inner ← changeAt dotted change path origin []
      return entries.put key (.table origin inner)
    | some (.table origin inner) => do
      if origin = .inline ∨ (dotted ∧ origin.isOpen = false) then none
      else
        let inner ← changeAt dotted change path origin inner
        return entries.put key (.table origin inner)
    | some (.tables earlier last) => do
      let last ← changeAt dotted change path .header last
      return entries.put key (.tables earlier last)
    | some _ => none

/-- Gives a key a value, unless it has one. -/
def insertNew (key : String) (value : DocumentValue) (entries : DocumentEntries) :
    Option DocumentEntries :=
  match List.lookup key entries with
  | none => some (entries.put key value)
  | some _ => none

/-- Gives the key at the end of a dotted path a value.  The table it goes to must have come from dotted keys
too. -/
def insertDotted (path : List String) (key : String) (value : DocumentValue)
    (entries : DocumentEntries) : Option DocumentEntries :=
  let insert (origin : TableOrigin) (inner : DocumentEntries) : Option DocumentEntries :=
    if path.isEmpty ∨ origin = .dotted then insertNew key value inner else none
  changeAt true insert path .header entries

/-- Starts the table that a header names. -/
def startTable (path : List String) (key : String) (entries : DocumentEntries) :
    Option DocumentEntries :=
  let start (_ : TableOrigin) (inner : DocumentEntries) : Option DocumentEntries :=
    match List.lookup key inner with
    | none => some (inner.put key (.table .header []))
    | some (.table .passing found) => some (inner.put key (.table .header found))
    | some _ => none
  changeAt false start path .header entries

/-- Starts the next table that a doubled header names. -/
def startElement (path : List String) (key : String) (entries : DocumentEntries) :
    Option DocumentEntries :=
  let start (_ : TableOrigin) (inner : DocumentEntries) : Option DocumentEntries :=
    match List.lookup key inner with
    | none => some (inner.put key (.tables [] []))
    | some (.tables earlier last) => some (inner.put key (.tables (earlier ++ [last]) []))
    | some _ => none
  changeAt false start path .header entries

end DocumentEntries

/-- A document while it is read: what has been read, and the path of the table that takes the next keys. -/
structure Document where
  entries : DocumentEntries
  cursor : List String

namespace Document

/-- The document without entries. -/
def empty : Document := ⟨[], []⟩

/-- Gives a dotted key of the current table a value. -/
def assign (path : List String) (key : String) (value : DocumentValue) (d : Document) :
    Option Document := do
  let insert (_ : TableOrigin) (inner : DocumentEntries) : Option DocumentEntries :=
    inner.insertDotted path key value
  let entries ← d.entries.changeAt false insert d.cursor .header
  return { d with entries := entries }

/-- Goes to the table that a header names. -/
def enterTable (path : List String) (key : String) (d : Document) : Option Document := do
  let entries ← d.entries.startTable path key
  return ⟨entries, path ++ [key]⟩

/-- Goes to the next table that a doubled header names. -/
def enterElement (path : List String) (key : String) (d : Document) : Option Document := do
  let entries ← d.entries.startElement path key
  return ⟨entries, path ++ [key]⟩

end Document

end BlockForm
