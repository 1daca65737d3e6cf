import BlockForm.Type.Basic

/-!
# BlockForm.Type.Shape — equality of types up to member names

Two types have the same shape if they are built alike once all member names are left out; user-defined
types are compared by name alone.
-/

namespace BlockForm.Ty

mutual

/-- The types are built alike, member names aside. -/
def sameShape : Ty → Ty → Bool
  | leaf _ a, b => a.sameShape b
  | elementary e, b =>
    match b.stripLeaf with
    | elementary e' => e == e'
    | _ => false
  | operator op as, b =>
    match b.stripLeaf with
    | operator op' bs => op == op' && sameShapes as bs
    | _ => false
  | defined name _, b =>
    match b.stripLeaf with
    | defined name' _ => name == name'
    | _ => false

/-- The lists have equal length and the same shapes in order. -/
def sameShapes : List Ty → List Ty → Bool
  | [], [] => true
  | a :: as, b :: bs => a.sameShape b && sameShapes as bs
  | _, _ => false

end

end BlockForm.Ty
