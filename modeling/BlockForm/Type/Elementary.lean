/-!
# BlockForm.Type.Elementary — the built-in scalar types
-/

namespace BlockForm

/-- Built-in scalar types. -/
inductive Elementary where
  | i8 | i16 | i32 | i64
  | u8 | u16 | u32 | u64
  | f32 | f64
  | string | bool | nil
  deriving DecidableEq, Inhabited

namespace Elementary

/-- Every elementary type, in declaration order. -/
def all : List Elementary :=
  [i8, i16, i32, i64, u8, u16, u32, u64, f32, f64, string, bool, nil]

/-- The name of the type in source text. -/
def name : Elementary → String
  | i8 => "i8"
  | i16 => "i16"
  | i32 => "i32"
  | i64 => "i64"
  | u8 => "u8"
  | u16 => "u16"
  | u32 => "u32"
  | u64 => "u64"
  | f32 => "f32"
  | f64 => "f64"
  | string => "string"
  | bool => "bool"
  | nil => "nil"

/-- The elementary type with the given name. -/
def ofName? (name : String) : Option Elementary := all.find? fun e => e.name == name

/-- Position in declaration order. -/
def index (e : Elementary) : Nat := all.idxOf e

/-- `a` is declared before `b`. -/
def precedes (a b : Elementary) : Bool := a.index < b.index

/-- Signed integers. -/
def isSigned : Elementary → Bool
  | i8 | i16 | i32 | i64 => true
  | _ => false

/-- Signed and unsigned integers. -/
def isInteger : Elementary → Bool
  | i8 | i16 | i32 | i64 | u8 | u16 | u32 | u64 => true
  | _ => false

/-- Floating point numbers. -/
def isFloat : Elementary → Bool
  | f32 | f64 => true
  | _ => false

/-- Integers and floating point numbers. -/
def isNumeric (e : Elementary) : Bool := e.isInteger || e.isFloat

/-- Width in bits of a numeric type. -/
def width? : Elementary → Option Nat
  | i8 | u8 => some 8
  | i16 | u16 => some 16
  | i32 | u32 | f32 => some 32
  | i64 | u64 | f64 => some 64
  | string | bool | nil => none

/-- The least and the greatest value of an integer type. -/
def range? : Elementary → Option (Int × Int)
  | i8 => some (-128, 127)
  | i16 => some (-32768, 32767)
  | i32 => some (-2147483648, 2147483647)
  | i64 => some (-9223372036854775808, 9223372036854775807)
  | u8 => some (0, 255)
  | u16 => some (0, 65535)
  | u32 => some (0, 4294967295)
  | u64 => some (0, 18446744073709551615)
  | _ => none

/-- Size in bytes of a value; a string is stored as a pointer to its data. -/
def byteSize : Elementary → Nat
  | i8 | u8 | bool => 1
  | i16 | u16 => 2
  | i32 | u32 | f32 => 4
  | i64 | u64 | f64 | string => 8
  | nil => 0

end Elementary

end BlockForm
