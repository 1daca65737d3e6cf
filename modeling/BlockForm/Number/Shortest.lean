/-!
# BlockForm.Number.Shortest — the fewest decimal digits that read back

A positive binary number is `mantissa * 2 ^ exponent`, and every real between the midpoints to its two
neighbours rounds to it (the midpoints too when the mantissa is even).  For one digit, two digits and so on,
the two decimals around the number with that many digits are tried; the first count with a decimal in the
interval wins, of two hits the nearer one, and an exact tie goes to the larger.  Seventeen digits always do.
All comparisons are exact, on natural numbers.
-/

namespace BlockForm

/-- A decimal number `digits * 10 ^ exponent`. -/
structure Scientific where
  digits : Nat
  exponent : Int
  deriving DecidableEq, Inhabited

namespace Scientific

/-- The same number without trailing zero digits; `fuel` bounds how many are removed. -/
def trimZeros : (fuel : Nat) → Scientific → Scientific
  | 0, s => s
  | fuel + 1, s =>
    if s.digits % 10 = 0 ∧ s.digits ≠ 0 then trimZeros fuel ⟨s.digits / 10, s.exponent + 1⟩ else s

end Scientific

/-- A positive number `mantissa * 2 ^ exponent` with the format it was taken from: `tight` holds when the
neighbour below is only half as far away as the one above. -/
structure BinaryNumber where
  mantissa : Nat
  exponent : Int
  tight : Bool

namespace BinaryNumber

/-- Quarter units of the last place below the number that still round to it. -/
def below (x : BinaryNumber) : Nat := if x.tight then 1 else 2

/-- Leading zero digits after the point of the fraction `num / den` below one. -/
def leadingZeros : (fuel : Nat) → (num den : Nat) → Nat
  | 0, _, _ => 0
  | fuel + 1, num, den => if den ≤ 10 * num then 0 else leadingZeros fuel (10 * num) den + 1

/-- The number of digits before the point, or minus the number of zeros after it for numbers below one. -/
def magnitude (x : BinaryNumber) : Int :=
  let num := x.mantissa * Nat.pow 2 x.exponent.toNat
  let den := Nat.pow 2 (-x.exponent).toNat
  if den ≤ num then ((num / den).repr.length : Int)
  else -(leadingZeros (Nat.log2 den + 1) num den : Int)

/-- Factors `(a, b)` with `d * 10 ^ j` against `m * 2 ^ q` as `d * a` against `m * b`. -/
def crossFactors (j q : Int) : Nat × Nat :=
  (Nat.pow 10 j.toNat * Nat.pow 2 (-q).toNat, Nat.pow 10 (-j).toNat * Nat.pow 2 q.toNat)

/-- The decimal with the given unit `10 ^ j` that rounds to the number, if there is one. -/
def decimalAt? (x : BinaryNumber) (j : Int) : Option Nat :=
  let (a, b) := crossFactors j (x.exponent - 2)
  let value := 4 * x.mantissa * b
  let low := (4 * x.mantissa - x.below) * b
  let high := (4 * x.mantissa + 2) * b
  let reads (d : Nat) : Bool :=
    if x.mantissa % 2 = 0 then low ≤ d * a && d * a ≤ high else low < d * a && d * a < high
  let floor := value / a
  let nearUp := decide ((floor + 1) * a - value ≤ value - floor * a)
  match reads floor, reads (floor + 1) with
  | true, true => some (if nearUp then floor + 1 else floor)
  | true, false => some floor
  | false, true => some (floor + 1)
  | false, false => none

/-- The number itself, with all its decimal digits. -/
def exact (x : BinaryNumber) : Scientific :=
  ⟨x.mantissa * Nat.pow 2 x.exponent.toNat * Nat.pow 5 (-x.exponent).toNat, min x.exponent 0⟩

/-- Tries `count` digit counts, starting with the given one. -/
def searchDigits (x : BinaryNumber) (magnitude : Int) : (count digits : Nat) → Scientific
  | 0, _ => x.exact
  | count + 1, digits =>
    let j := magnitude - (digits : Int)
    match x.decimalAt? j with
    | some d => (⟨d, j⟩ : Scientific).trimZeros 20
    | none => searchDigits x magnitude count (digits + 1)

/-- The shortest decimal that rounds to the number. -/
def shortest (x : BinaryNumber) : Scientific := x.searchDigits x.magnitude 17 1

end BinaryNumber

end BlockForm
