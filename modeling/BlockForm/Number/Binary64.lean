import BlockForm.Number.Shortest

/-!
# BlockForm.Number.Binary64 — double precision numbers and their text

A number is kept as its 64 bits.  Its text has the fewest digits that read back, always with a point or an
exponent: positional from `0.0001` up to but not including `10 ^ 16`, scientific elsewhere.
-/

namespace BlockForm

/-- A double precision number, given by its bits. -/
structure Binary64 where
  bits : UInt64
  deriving DecidableEq, Inhabited

namespace Binary64

/-- The sign bit is set. -/
def isNegative (x : Binary64) : Bool := x.bits >>> 63 == 1

/-- The eleven bits of the exponent. -/
def exponentField (x : Binary64) : Nat := ((x.bits >>> 52) &&& 0x7ff).toNat

/-- The fifty-two bits of the fraction. -/
def fraction (x : Binary64) : Nat := (x.bits &&& 0xfffffffffffff).toNat

/-- The bits stand for no number. -/
def isNaN (x : Binary64) : Bool := x.exponentField == 0x7ff && x.fraction != 0

/-- The bits stand for one of the two infinities. -/
def isInfinite (x : Binary64) : Bool := x.exponentField == 0x7ff && x.fraction == 0

/-- The bits stand for one of the two zeros. -/
def isZero (x : Binary64) : Bool := x.exponentField == 0 && x.fraction == 0

/-- The absolute value of a finite number. -/
def magnitude (x : Binary64) : BinaryNumber :=
  if x.exponentField = 0 then ⟨x.fraction, -1074, false⟩
  else
    ⟨Nat.pow 2 52 + x.fraction, (x.exponentField : Int) - 1075, x.fraction == 0 && 1 < x.exponentField⟩

/-- The nearest double to a natural number below `2 ^ 1023`, ties going to the even mantissa. -/
def ofNat (n : Nat) : Binary64 :=
  if n = 0 then ⟨0⟩
  else
    let top := Nat.log2 n
    let mantissa :=
      if top ≤ 52 then n * Nat.pow 2 (52 - top)
      else
        let unit := Nat.pow 2 (top - 52)
        let quotient := n / unit
        let twice := 2 * (n % unit)
        if unit < twice || (twice == unit && quotient % 2 == 1) then quotient + 1 else quotient
    ⟨UInt64.ofNat ((1022 + top) * Nat.pow 2 52 + mantissa)⟩

/-- The number with the opposite sign. -/
def negate (x : Binary64) : Binary64 := ⟨x.bits ^^^ 0x8000000000000000⟩

/-- The nearest double to a 64 bit integer. -/
def ofInt64 (v : Int64) : Binary64 :=
  if v.toInt < 0 then (ofNat v.toInt.natAbs).negate else ofNat v.toInt.natAbs

/-- The text of a decimal whose first digit stands for `10 ^ exponent`, in scientific form. -/
def scientificText (digits : List Char) (exponent : Int) : String :=
  let mantissa :=
    match digits with
    | [] => []
    | [d] => [d]
    | d :: ds => d :: '.' :: ds
  String.ofList mantissa ++ "e" ++ exponent.repr

/-- The text of a decimal whose first digit stands for `10 ^ exponent`, with a point and no exponent. -/
def positionalText (digits : List Char) (exponent : Int) : String :=
  if exponent < 0 then
    "0." ++ String.ofList (List.replicate (-exponent - 1).toNat '0' ++ digits)
  else
    let whole := exponent.toNat + 1
    let padded := digits ++ List.replicate (whole - digits.length) '0'
    let rest := padded.drop whole
    String.ofList (padded.take whole) ++ "." ++ String.ofList (if rest.isEmpty then ['0'] else rest)

/-- The text of a number. -/
def text (x : Binary64) : String :=
  if x.isNaN then "NaN"
  else
    let body :=
      if x.isInfinite then "inf"
      else if x.isZero then "0.0"
      else
        let s := x.magnitude.shortest
        let digits := s.digits.repr.toList
        let exponent := s.exponent + digits.length - 1
        if -4 ≤ exponent ∧ exponent < 16 then positionalText digits exponent
        else scientificText digits exponent
    if x.isNegative then "-" ++ body else body

end Binary64

end BlockForm
