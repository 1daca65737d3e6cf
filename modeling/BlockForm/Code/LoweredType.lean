import BlockForm.Code.Handle
import BlockForm.Type.Elementary

/-!
# BlockForm.Code.LoweredType — types of values in block form

A lowered type is elementary or refers to a typedef of the unit.  Whether it is the type of an address is a
flag beside it: the slot of a `u32` has the same kind as the `u32` stored in it.
-/

namespace BlockForm

/-- What a lowered type is, addresses aside. -/
inductive LoweredKind where
  | elementary (e : Elementary)
  /-- A typedef of the unit. -/
  | composite (id : TypeDefId)
  deriving DecidableEq, Inhabited

/-- A lowered type. -/
structure LoweredType where
  kind : LoweredKind
  isPointer : Bool
  deriving DecidableEq, Inhabited

namespace LoweredType

/-- An elementary value. -/
def elementary (e : Elementary) : LoweredType := ⟨.elementary e, false⟩

/-- A value laid out by a typedef. -/
def composite (id : TypeDefId) : LoweredType := ⟨.composite id, false⟩

/-- The type of no value. -/
def nil : LoweredType := elementary .nil

/-- The address of a value of this kind. -/
def pointerTo (t : LoweredType) : LoweredType := { t with isPointer := true }

/-- A value of this kind. -/
def pointee (t : LoweredType) : LoweredType := { t with isPointer := false }

/-- The kinds are equal, addresses or not. -/
def sameKind (a b : LoweredType) : Bool := a.kind == b.kind

/-- The elementary type of the kind. -/
def elementary? (t : LoweredType) : Option Elementary :=
  match t.kind with
  | .elementary e => some e
  | .composite _ => none

/-- The typedef of the kind. -/
def typedef? (t : LoweredType) : Option TypeDefId :=
  match t.kind with
  | .elementary _ => none
  | .composite id => some id

/-- The kind is elementary. -/
def isElementary (t : LoweredType) : Bool := t.elementary?.isSome

/-- The kind is a typedef. -/
def isComposite (t : LoweredType) : Bool := t.typedef?.isSome

/-- The type of no value. -/
def isNil (t : LoweredType) : Bool := !t.isPointer && t.elementary? == some .nil

/-- A truth value. -/
def isBool (t : LoweredType) : Bool := !t.isPointer && t.elementary? == some .bool

/-- An integer value. -/
def isInteger (t : LoweredType) : Bool := !t.isPointer && t.elementary?.any Elementary.isInteger

/-- A numeric value. -/
def isNumeric (t : LoweredType) : Bool := !t.isPointer && t.elementary?.any Elementary.isNumeric

/-- An elementary value, not an address. -/
def isScalar (t : LoweredType) : Bool := !t.isPointer && t.isElementary

/-- How a value of this type is passed to a function: composites by address. -/
def asArgument (t : LoweredType) : LoweredType := if t.isComposite then t.pointerTo else t

end LoweredType

end BlockForm
