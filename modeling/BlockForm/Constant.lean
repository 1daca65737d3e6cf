import BlockForm.Number.Binary64
import BlockForm.Type.Elementary

/-!
# BlockForm.Constant — compile-time constants
-/

namespace BlockForm

/-- A compile-time constant. -/
inductive Constant where
  | int (value : Int64)
  | float (value : Binary64)
  | bool (value : Bool)
  deriving DecidableEq, Inhabited

namespace Constant

/-- The type of a constant when nothing asks for a narrower one. -/
def defaultType : Constant → Elementary
  | int _ => .i64
  | float _ => .f64
  | bool _ => .bool

/-- The constant as one of type `target`, if that needs no conversion at run time: an integer must lie in the
range of an integer type and becomes the nearest number of a floating point type. -/
def retyped? (c : Constant) (target : Elementary) : Option Constant :=
  match c with
  | int v =>
    match target.range? with
    | some (least, greatest) => if least ≤ v.toInt ∧ v.toInt ≤ greatest then some (int v) else none
    | none => if target.isFloat then some (float (.ofInt64 v)) else none
  | float v => if target.isFloat then some (float v) else none
  | bool b => if target = .bool then some (bool b) else none

/-- The constant in the textual form. -/
def text : Constant → String
  | int v => v.toInt.repr
  | float v => v.text
  | bool true => "true"
  | bool false => "false"

end Constant

end BlockForm
