import BlockForm.Manifest.Document
import BlockForm.Manifest.Number
import BlockForm.Manifest.Text

/-!
# BlockForm.Manifest.Reader — reading a document

A document is a list of lines: a comment, a key with its value, or the header of a table.  Every scan takes at
least one character before it goes deeper, so the length of the text bounds the recursion.
-/

namespace BlockForm

namespace DocumentReader

open Scan

/-- Values nest and keys are dotted fewer times than this. -/
def depthLimit : Nat := 80

/-- Characters of a key without quotes. -/
def isKeyChar (c : Char) : Bool :=
  isDigit c || ('a' ≤ c && c ≤ 'z') || ('A' ≤ c && c ≤ 'Z') || c == '-' || c == '_'

/-- Takes one part of a key. -/
def keyPart : Scan String := do
  gap
  let part ← DocumentText.oneLine <|> do
    let first ← one isKeyChar
    let more ← many isKeyChar
    pure (String.ofList (first :: more))
  gap
  return part

/-- Takes the parts of a key after the first. -/
def keyParts : (fuel : Nat) → Scan (List String)
  | 0 => pure []
  | fuel + 1 => do
    match ← peek with
    | some '.' =>
      exactly "."
      let part ← keyPart
      let parts ← keyParts fuel
      return part :: parts
    | _ => return []

/-- Takes a dotted key: the path to its table and its last part. -/
def key : Scan (List String × String) := do
  let first ← keyPart
  let more ← keyParts depthLimit
  let parts := first :: more
  require (parts.length < depthLimit)
  match parts.getLast? with
  | some last => return (parts.dropLast, last)
  | none => failure

/-- Takes white space, comments and ends of lines. -/
def trivia : (fuel : Nat) → Scan Unit
  | 0 => gap
  | fuel + 1 => do
    gap
    match ← peek with
    | some '#' =>
      comment
      newline
      trivia fuel
    | some '\n' | some '\r' =>
      newline
      trivia fuel
    | _ => return ()

mutual

/-- Takes a value. -/
def value : (fuel depth : Nat) → Scan DocumentValue
  | 0, _ => failure
  | fuel + 1, depth => do
    match ← peek with
    | some '"' | some '\x27' => return .text (← DocumentText.string)
    | some '[' =>
      require (depth + 1 < depthLimit)
      exactly "["
      let items ← arrayItems fuel (depth + 1)
      return .array items
    | some '\x7b' =>
      require (depth + 1 < depthLimit)
      exactly "\x7b"
      gap
      match ← peek with
      | some '\x7d' =>
        exactly "\x7d"
        return .table .inline []
      | _ =>
        let entries ← inlineEntries fuel (depth + 1) []
        return .table .inline entries
    | some 't' =>
      exactly "true"
      return .bool true
    | some 'f' =>
      exactly "false"
      return .bool false
    | _ =>
      (do
        DocumentDate.date
        return .date) <|> do
        DocumentNumber.number
        return .number

/-- Takes the items of an array and its closing bracket; a comma may stand before the bracket. -/
def arrayItems : (fuel depth : Nat) → Scan (List DocumentValue)
  | 0, _ => failure
  | fuel + 1, depth => do
    trivia fuel
    match ← peek with
    | some ']' =>
      exactly "]"
      return []
    | _ =>
      let item ← value fuel depth
      trivia fuel
      match ← peek with
      | some ',' =>
        exactly ","
        let items ← arrayItems fuel depth
        return item :: items
      | _ =>
        exactly "]"
        return [item]

/-- Takes the entries of an inline table and its closing brace. -/
def inlineEntries : (fuel depth : Nat) → DocumentEntries → Scan DocumentEntries
  | 0, _, _ => failure
  | fuel + 1, depth, entries => do
    let (path, last) ← key
    exactly "="
    gap
    let v ← value fuel depth
    gap
    let entries ← given (entries.insertDotted path last v)
    match ← peek with
    | some ',' =>
      exactly ","
      inlineEntries fuel depth entries
    | _ =>
      exactly "\x7d"
      return entries

end

/-- Takes a key with its value. -/
def assignment (fuel : Nat) (d : Document) : Scan Document := do
  let (path, last) ← key
  exactly "="
  gap
  let v ← value fuel 0
  given (d.assign path last v)

/-- Takes the header of a table. -/
def header (d : Document) : Scan Document :=
  (do
    exactly "[["
    let (path, last) ← key
    exactly "]]"
    given (d.enterElement path last)) <|> do
    exactly "["
    let (path, last) ← key
    exactly "]"
    given (d.enterTable path last)

/-- Takes lines until the text ends. -/
def lines : (fuel : Nat) → Document → Scan Document
  | 0, _ => failure
  | fuel + 1, d => do
    gap
    match ← peek with
    | none => return d
    | some '#' | some '\n' | some '\r' =>
      lineEnd
      lines fuel d
    | some '[' =>
      let d ← header d
      lineEnd
      lines fuel d
    | some _ =>
      let d ← assignment fuel d
      lineEnd
      lines fuel d

/-- The text without a byte order mark in front. -/
def dropMark : List Char → List Char
  | '\uFEFF' :: cs => cs
  | cs => cs

end DocumentReader

/-- The entries of a document. -/
def Document.parse? (text : String) : Option DocumentEntries :=
  let cs := DocumentReader.dropMark text.toList
  match DocumentReader.lines (cs.length + 1) .empty cs with
  | some (d, _) => some d.entries
  | none => none

end BlockForm
