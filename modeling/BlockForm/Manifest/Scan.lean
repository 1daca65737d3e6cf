/-!
# BlockForm.Manifest.Scan — reading characters one after another

A scan takes characters from the front of a text and gives a result with the rest, or refuses the text.  A scan
that refuses has taken nothing, so another can be tried in its place.
-/

namespace BlockForm

/-- A reader of characters. -/
abbrev Scan := StateT (List Char) Option

namespace Scan

variable {α : Type}

/-- The next character, which is not taken. -/
def peek : Scan (Option Char) := fun cs => some (cs.head?, cs)

/-- Takes the given text. -/
def exactly (text : String) : Scan Unit := fun cs =>
  if text.toList.isPrefixOf cs then some ((), cs.drop text.toList.length) else none

/-- Takes one character of a class. -/
def one (p : Char → Bool) : Scan Char := fun cs =>
  match cs with
  | c :: rest => if p c then some (c, rest) else none
  | [] => none

/-- Takes characters of a class for as long as there are any. -/
def many (p : Char → Bool) : Scan (List Char) := fun cs => some (cs.takeWhile p, cs.dropWhile p)

/-- Takes exactly `count` characters of a class. -/
def times (count : Nat) (p : Char → Bool) : Scan (List Char) := fun cs =>
  let taken := cs.take count
  if taken.length = count ∧ taken.all p then some (taken, cs.drop count) else none

/-- Takes what a scan takes, or nothing. -/
def optionally (x : Scan α) : Scan (Option α) := fun cs =>
  match x cs with
  | some (a, rest) => some (some a, rest)
  | none => some (none, cs)

/-- Refuses unless the condition holds. -/
def require (condition : Bool) : Scan Unit := fun cs => if condition then some ((), cs) else none

/-- A result that may be missing. -/
def given (value : Option α) : Scan α := fun cs => value.map fun a => (a, cs)

/-- Nothing is left. -/
def finished : Scan Unit := fun cs => if cs.isEmpty then some ((), cs) else none

/-- Spaces and tabs. -/
def isGap (c : Char) : Bool := c == ' ' || c == '\t'

/-- Takes spaces and tabs. -/
def gap : Scan Unit := do
  let _ ← many isGap

/-- Takes the end of a line. -/
def newline : Scan Unit := exactly "\n" <|> exactly "\r\n"

/-- Any character but a control character; the tab is allowed. -/
def isPlain (c : Char) : Bool := c == '\t' || (0x20 ≤ c.toNat && c.toNat != 0x7F)

/-- Takes a comment up to the end of its line. -/
def comment : Scan Unit := do
  exactly "#"
  let _ ← many isPlain

/-- Takes the end of a line with a comment before it, if there is one. -/
def lineEnd : Scan Unit := do
  gap
  let _ ← optionally comment
  newline <|> finished

/-- Decimal digits. -/
def isDigit (c : Char) : Bool := '0' ≤ c && c ≤ '9'

/-- Hexadecimal digits. -/
def isHexDigit (c : Char) : Bool := isDigit c || ('a' ≤ c && c ≤ 'f') || ('A' ≤ c && c ≤ 'F')

/-- The value of a digit. -/
def digitValue (c : Char) : Nat :=
  if isDigit c then c.toNat - '0'.toNat
  else if 'a' ≤ c then c.toNat - 'a'.toNat + 10
  else c.toNat - 'A'.toNat + 10

/-- The number that digits stand for. -/
def numberOf (base : Nat) (digits : List Char) : Nat :=
  digits.foldl (fun n d => base * n + digitValue d) 0

/-- Digits that go on, single underscores between them being left out, and the rest. -/
def digitsIn (p : Char → Bool) : List Char → List Char × List Char
  | [] => ([], [])
  | '_' :: c :: rest =>
    if p c then
      let (ds, rest') := digitsIn p rest
      (c :: ds, rest')
    else ([], '_' :: c :: rest)
  | c :: rest =>
    if p c then
      let (ds, rest') := digitsIn p rest
      (c :: ds, rest')
    else ([], c :: rest)

/-- Takes one digit or more, with single underscores between them. -/
def digits (p : Char → Bool) : Scan (List Char) := do
  let first ← one p
  let more ← fun cs => some (digitsIn p cs)
  return first :: more

end Scan

end BlockForm
