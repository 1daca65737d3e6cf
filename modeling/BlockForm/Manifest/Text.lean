import BlockForm.Manifest.Scan

/-!
# BlockForm.Manifest.Text — strings of a document

A string stands between double quotes, with escapes, or between single quotes, as it is; tripled quotes let it
run over lines.  A line of a tripled string ends in a single line feed however it is written, and one right after
the opening quotes does not count.
-/

namespace BlockForm

namespace DocumentText

open Scan

/-- What a single letter stands for after a backslash. -/
def letterEscape? : Char → Option Char
  | 'b' => some '\x08'
  | 't' => some '\t'
  | 'n' => some '\n'
  | 'f' => some '\x0c'
  | 'r' => some '\r'
  | '"' => some '"'
  | '\\' => some '\\'
  | _ => none

/-- The character with the given code point. -/
def charAt? (n : Nat) : Option Char := if n.isValidChar then some (Char.ofNat n) else none

/-- The character of `count` hexadecimal digits. -/
def codeEscape? (count : Nat) (cs : List Char) : Option Char :=
  let taken := cs.take count
  if taken.length = count ∧ taken.all isHexDigit then charAt? (numberOf 16 taken) else none

/-- What follows a backslash: the character it stands for and how many characters that takes. -/
def escape? : List Char → Option (Char × Nat)
  | 'u' :: rest => (codeEscape? 4 rest).map (·, 5)
  | 'U' :: rest => (codeEscape? 8 rest).map (·, 9)
  | c :: _ => (letterEscape? c).map (·, 1)
  | [] => none

/-- The content up to the double quote that ends it, and the rest. -/
def basic (cs : List Char) : Option (List Char × List Char) :=
  match cs with
  | [] => none
  | '"' :: rest => some ([], rest)
  | '\\' :: rest =>
    match escape? rest with
    | some (c, n) => (basic (rest.drop n)).map fun (content, rest') => (c :: content, rest')
    | none => none
  | c :: rest =>
    if isPlain c then (basic rest).map fun (content, rest') => (c :: content, rest') else none
termination_by cs.length
decreasing_by all_goals (simp only [List.length_cons, List.length_drop]; omega)

/-- The content up to the single quote that ends it, and the rest. -/
def literal : List Char → Option (List Char × List Char)
  | [] => none
  | '\x27' :: rest => some ([], rest)
  | c :: rest =>
    if isPlain c then (literal rest).map fun (content, rest') => (c :: content, rest') else none

/-- After tripled quotes, up to two more belong to the content. -/
def closing (quote : Char) : List Char → List Char × List Char
  | a :: b :: rest =>
    if a = quote then if b = quote then ([quote, quote], rest) else ([quote], b :: rest)
    else ([], a :: b :: rest)
  | [a] => if a = quote then ([quote], []) else ([], [a])
  | [] => ([], [])

/-- The number of characters of white space and ends of lines at the start. -/
def blankLength : List Char → Nat
  | '\r' :: '\n' :: rest => blankLength rest + 2
  | c :: rest => if isGap c || c == '\n' then blankLength rest + 1 else 0
  | [] => 0

/-- How many characters a backslash at the end of a line leaves out: the rest of its line and the white space
at the start of the next ones. -/
def lineJoin? (cs : List Char) : Option Nat :=
  match cs.dropWhile isGap with
  | '\n' :: _ | '\r' :: '\n' :: _ => some (blankLength cs)
  | _ => none

/-- The content up to the tripled double quotes that end it, and the rest. -/
def multilineBasic (cs : List Char) : Option (List Char × List Char) :=
  match cs with
  | [] => none
  | '"' :: '"' :: '"' :: rest => some (closing '"' rest)
  | '\\' :: rest =>
    match lineJoin? rest with
    | some n => multilineBasic (rest.drop n)
    | none =>
      match escape? rest with
      | some (c, n) =>
        (multilineBasic (rest.drop n)).map fun (content, rest') => (c :: content, rest')
      | none => none
  | '\r' :: '\n' :: rest =>
    (multilineBasic rest).map fun (content, rest') => ('\n' :: content, rest')
  | c :: rest =>
    if isPlain c || c == '\n' then
      (multilineBasic rest).map fun (content, rest') => (c :: content, rest')
    else none
termination_by cs.length
decreasing_by all_goals (simp only [List.length_cons, List.length_drop]; omega)

/-- The content up to the tripled single quotes that end it, and the rest. -/
def multilineLiteral : List Char → Option (List Char × List Char)
  | [] => none
  | '\x27' :: '\x27' :: '\x27' :: rest => some (closing '\x27' rest)
  | '\r' :: '\n' :: rest =>
    (multilineLiteral rest).map fun (content, rest') => ('\n' :: content, rest')
  | c :: rest =>
    if isPlain c || c == '\n' then
      (multilineLiteral rest).map fun (content, rest') => (c :: content, rest')
    else none

/-- Takes a string on one line. -/
def oneLine : Scan String := fun cs =>
  match cs with
  | '"' :: rest => (basic rest).map fun (content, rest') => (String.ofList content, rest')
  | '\x27' :: rest => (literal rest).map fun (content, rest') => (String.ofList content, rest')
  | _ => none

/-- Takes a string between tripled quotes. -/
def multiline : Scan String := do
  let body ← (do exactly "\"\"\""; return multilineBasic) <|>
    (do exactly "\x27\x27\x27"; return multilineLiteral)
  let _ ← optionally newline
  let content ← body
  return String.ofList content

/-- Takes a string. -/
def string : Scan String := fun cs =>
  match cs with
  | '"' :: '"' :: '"' :: _ | '\x27' :: '\x27' :: '\x27' :: _ => multiline cs
  | _ => oneLine cs

end DocumentText

end BlockForm
