import BlockForm.Text.Unprintable
import BlockForm.Text.Extender

/-!
# BlockForm.Text.Quoted — string contents between double quotes

A quoted text is printable on one line: the quote and the backslash are escaped, NUL, tab, line feed and
carriage return have a letter, and what is unprintable or would join the character before it is written
by its code point.
-/

namespace BlockForm.Text

/-- One character of a quoted text. -/
def escapeChar (c : Char) : String :=
  match c with
  | '\x00' => "\\0"
  | '\t' => "\\t"
  | '\r' => "\\r"
  | '\n' => "\\n"
  | '"' => "\\\""
  | '\\' => "\\\\"
  | c =>
    if isExtender c || isUnprintable c then
      "\\u\x7b" ++ String.ofList (Nat.toDigits 16 c.toNat) ++ "\x7d"
    else String.singleton c

/-- The text between double quotes. -/
def quoted (text : String) : String :=
  "\"" ++ String.join (text.toList.map escapeChar) ++ "\""

end BlockForm.Text
