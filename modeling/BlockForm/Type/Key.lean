import BlockForm.Type.Basic

/-!
# BlockForm.Type.Key — the text of a surface type

The text serves as the key under which the layout of a type is kept.  An operand that is itself joined by
another connective stands in parentheses; a user-defined type is written by its name.
-/

namespace BlockForm.Ty

/-- Puts the text of an operand in parentheses if it is joined by a connective other than the one around
it. -/
def parenthesized (around : Option Connective) (ty : Ty) (text : String) : String :=
  match ty with
  | operator op _ => if around = some op then text else "(" ++ text ++ ")"
  | _ => text

mutual

/-- The text of a type. -/
def key : Ty → String
  | elementary e => e.name
  | leaf name ty => name ++ ":" ++ parenthesized none ty ty.key
  | operator op operands => op.separator.intercalate (operandKeys op operands)
  | defined name _ => name

/-- The texts of the operands of a connective. -/
def operandKeys (op : Connective) : List Ty → List String
  | [] => []
  | ty :: tys => parenthesized (some op) ty ty.key :: operandKeys op tys

end

end BlockForm.Ty
