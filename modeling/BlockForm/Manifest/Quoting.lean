/-!
# BlockForm.Manifest.Quoting — writing strings of a document

The plainest quotes that need no escape are taken: double, then single, then tripled double, then tripled single
ones.  A text that needs escapes stands between double quotes, tripled if it has more than one line.
-/

namespace BlockForm

/-- What decides the quotes of a text. -/
structure QuotingNeeds where
  /-- The longest row of single quotes. -/
  singleQuotes : Nat
  /-- The longest row of double quotes. -/
  doubleQuotes : Nat
  hasBackslash : Bool
  hasNewline : Bool
  /-- A control character other than tab and line feed. -/
  hasControl : Bool

namespace DocumentText

/-- The length of the longest row of a character, the text before it ending in `row` of them. -/
def longestRow (quote : Char) : (row : Nat) → List Char → Nat
  | row, [] => row
  | row, c :: cs => if c = quote then longestRow quote (row + 1) cs else max row (longestRow quote 0 cs)

/-- Control characters, tab and line feed aside. -/
def isControl (c : Char) : Bool := (c.toNat < 0x20 && c != '\t' && c != '\n') || c.toNat == 0x7F

/-- The needs of a text. -/
def needsOf (cs : List Char) : QuotingNeeds where
  singleQuotes := longestRow '\x27' 0 cs
  doubleQuotes := longestRow '"' 0 cs
  hasBackslash := cs.contains '\\'
  hasNewline := cs.contains '\n'
  hasControl := cs.any isControl

/-- Four hexadecimal digits. -/
def fourDigits (n : Nat) : String :=
  let digits := (Nat.toDigits 16 n).map Char.toUpper
  String.ofList (List.replicate (4 - digits.length) '0' ++ digits)

/-- A character between double quotes, the quote itself aside. -/
def escapedChar (multiline : Bool) (c : Char) : String :=
  match c with
  | '\x08' => "\\b"
  | '\t' => "\\t"
  | '\n' => if multiline then "\n" else "\\n"
  | '\x0c' => "\\f"
  | '\r' => "\\r"
  | '\\' => "\\\\"
  | c => if isControl c then "\\u" ++ fourDigits c.toNat else String.singleton c

/-- The content between double quotes; `allowed` double quotes in a row need no escape, and `row` of them have
been written already. -/
def escaped (multiline : Bool) (allowed : Nat) : (row : Nat) → List Char → String
  | _, [] => ""
  | row, '"' :: cs =>
    if row < allowed then "\"" ++ escaped multiline allowed (row + 1) cs
    else "\\\"" ++ escaped multiline allowed 0 cs
  | _, c :: cs => escapedChar multiline c ++ escaped multiline allowed 0 cs

/-- The text between double quotes. -/
def inDouble (cs : List Char) : String := "\"" ++ escaped false 0 0 cs ++ "\""

/-- The text between tripled double quotes. -/
def inTripleDouble (cs : List Char) : String :=
  "\"\"\"" ++ (if cs.contains '\n' then "\n" else "") ++ escaped true 2 0 cs ++ "\"\"\""

/-- The text between single quotes. -/
def inSingle (cs : List Char) : String := "\x27" ++ String.ofList cs ++ "\x27"

/-- The text between tripled single quotes. -/
def inTripleSingle (cs : List Char) : String :=
  "\x27\x27\x27" ++ (if cs.contains '\n' then "\n" else "") ++ String.ofList cs ++ "\x27\x27\x27"

/-- The text in the quotes that suit it. -/
def render (text : String) : String :=
  let cs := text.toList
  let needs := needsOf cs
  if !needs.hasControl && !needs.hasBackslash && needs.doubleQuotes == 0 && !needs.hasNewline then
    inDouble cs
  else if !needs.hasControl && needs.singleQuotes == 0 && !needs.hasNewline then inSingle cs
  else if !needs.hasControl && !needs.hasBackslash && needs.doubleQuotes ≤ 2 then inTripleDouble cs
  else if !needs.hasControl && needs.singleQuotes ≤ 2 then inTripleSingle cs
  else if needs.hasNewline then inTripleDouble cs
  else inDouble cs

end DocumentText

end BlockForm
