import BlockForm.Manifest.Scan

/-!
# BlockForm.Manifest.Number — numbers and dates of a document

A document keeps no number and no date, but it must not hold a malformed one: integers have 64 bits, a floating
point number does not grow past the largest double, and a date is a day of the calendar.
-/

namespace BlockForm

namespace DocumentNumber

open Scan

/-- Takes a sign; the result tells whether it is a minus. -/
def sign : Scan Bool := do
  let c ← optionally (one fun c => c == '+' || c == '-')
  return c == some '-'

/-- Takes decimal digits without a leading zero. -/
def wholeDigits : Scan (List Char) := do
  match ← peek with
  | some '0' =>
    exactly "0"
    return ['0']
  | _ => digits isDigit

/-- Takes a decimal integer of 64 bits. -/
def decimal : Scan Unit := do
  let negative ← sign
  let n := numberOf 10 (← wholeDigits)
  require (if negative then n ≤ Nat.pow 2 63 else n < Nat.pow 2 63)

/-- Takes an integer of 64 bits in another base. -/
def based (mark : String) (base : Nat) (p : Char → Bool) : Scan Unit := do
  exactly mark
  let ds ← digits p
  require (numberOf base ds < Nat.pow 2 63)

/-- Takes an integer. -/
def integer : Scan Unit := do
  based "0x" 16 isHexDigit <|> based "0o" 8 (fun c => '0' ≤ c && c ≤ '7') <|>
    based "0b" 2 (fun c => c == '0' || c == '1') <|> decimal

/-- The least real that rounds to infinity as a double. -/
def overflow : Nat := Nat.pow 2 1024 - Nat.pow 2 970

/-- The number `mantissa * 10 ^ exponent` is below the overflow.  Its count of digits decides unless it is that
of the overflow itself. -/
def isFinite (mantissa : Nat) (exponent : Int) : Bool :=
  let count : Int := (mantissa.repr.length : Int) + exponent
  mantissa == 0 || count < 309 ||
    (count == 309 && mantissa * Nat.pow 10 exponent.toNat < overflow * Nat.pow 10 (-exponent).toNat)

/-- Takes the exponent of a floating point number. -/
def exponent : Scan Int := do
  let _ ← one fun c => c == 'e' || c == 'E'
  let negative ← sign
  let n := numberOf 10 (← digits isDigit)
  return if negative then -(n : Int) else n

/-- Takes the digits after a point. -/
def fraction : Scan (List Char) := do
  exactly "."
  digits isDigit

/-- Takes a floating point number in digits; a positive one must be finite. -/
def decimalFloat : Scan Unit := do
  let negative ← sign
  let whole ← wholeDigits
  let after ← optionally fraction
  let scale ← optionally exponent
  require (after.isSome || scale.isSome)
  let fractional := after.getD []
  let mantissa := numberOf 10 (whole ++ fractional)
  require (negative || isFinite mantissa (scale.getD 0 - fractional.length))

/-- Takes an infinity or the absence of a number. -/
def specialFloat : Scan Unit := do
  let _ ← sign
  exactly "inf" <|> exactly "nan"

/-- Takes a number. -/
def number : Scan Unit := decimalFloat <|> specialFloat <|> integer

end DocumentNumber

namespace DocumentDate

open Scan

/-- Takes a number of exactly `count` digits between two bounds. -/
def field (count least greatest : Nat) : Scan Nat := do
  let n := numberOf 10 (← times count isDigit)
  require (least ≤ n && n ≤ greatest)
  return n

/-- The year has a 29th of February. -/
def isLeapYear (year : Nat) : Bool := year % 4 == 0 && (year % 100 != 0 || year % 400 == 0)

/-- The number of days of a month. -/
def daysOf (year month : Nat) : Nat :=
  if month = 2 then if isLeapYear year then 29 else 28
  else if month = 4 ∨ month = 6 ∨ month = 9 ∨ month = 11 then 30
  else 31

/-- Takes a day. -/
def day : Scan Unit := do
  let year ← field 4 0 9999
  exactly "-"
  let month ← field 2 1 12
  exactly "-"
  let _ ← field 2 1 (daysOf year month)

/-- Takes a time of day. -/
def time : Scan Unit := do
  let _ ← field 2 0 23
  exactly ":"
  let _ ← field 2 0 59
  exactly ":"
  let _ ← field 2 0 60
  let _ ← optionally do
    exactly "."
    let _ ← one isDigit
    let _ ← many isDigit

/-- Takes a distance from universal time. -/
def offset : Scan Unit := do
  exactly "Z" <|> exactly "z" <|> do
    let _ ← one fun c => c == '+' || c == '-'
    let _ ← field 2 0 23
    exactly ":"
    let _ ← field 2 0 59

/-- Takes a date, with a time of day if there is one, or a time of day alone. -/
def date : Scan Unit :=
  (do
    day
    let _ ← optionally do
      let _ ← one fun c => c == 'T' || c == 't' || c == ' '
      time
      let _ ← optionally offset) <|> time

end DocumentDate

end BlockForm
