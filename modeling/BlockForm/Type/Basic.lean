import BlockForm.Type.Elementary

/-!
# BlockForm.Type.Basic — surface types

A surface type is fully resolved: generic types have been instantiated.  Its members are what a value of
the type is laid out from; `Ty.height_lt_of_mem_members` bounds every recursion through them.
-/

namespace BlockForm

/-- How several types are joined into one. -/
inductive Connective where
  /-- All operands are present. -/
  | product
  /-- Exactly one operand is present. -/
  | sum
  /-- The type of a function from the first operand to the second. -/
  | implication
  deriving DecidableEq, Inhabited

/-- The name of a connective. -/
def Connective.name : Connective → String
  | .product => "product"
  | .sum => "sum"
  | .implication => "implication"

/-- What stands between two operands. -/
def Connective.separator : Connective → String
  | .product => ","
  | .sum => "|"
  | .implication => "->"

/-- A surface type. -/
inductive Ty where
  /-- A built-in scalar type. -/
  | elementary (e : Elementary)
  /-- A named member of a composite type. -/
  | leaf (name : String) (ty : Ty)
  /-- Several types joined by a connective. -/
  | operator (op : Connective) (operands : List Ty)
  /-- A user-defined type, known by its name. -/
  | defined (name : String) (body : Ty)
  deriving Inhabited

namespace Ty

/-- The type of no value. -/
def nil : Ty := elementary .nil

mutual

/-- Equality of surface types, names and bodies included. -/
def decEq : (a b : Ty) → Decidable (a = b)
  | elementary a, elementary b =>
    if h : a = b then isTrue (h ▸ rfl) else isFalse fun e => h (elementary.inj e)
  | leaf m a, leaf n b =>
    if h : m = n then
      match decEq a b with
      | isTrue h' => isTrue (by rw [h, h'])
      | isFalse h' => isFalse fun e => h' (leaf.inj e).2
    else isFalse fun e => h (leaf.inj e).1
  | operator p as, operator q bs =>
    if h : p = q then
      match decEqList as bs with
      | isTrue h' => isTrue (by rw [h, h'])
      | isFalse h' => isFalse fun e => h' (operator.inj e).2
    else isFalse fun e => h (operator.inj e).1
  | defined m a, defined n b =>
    if h : m = n then
      match decEq a b with
      | isTrue h' => isTrue (by rw [h, h'])
      | isFalse h' => isFalse fun e => h' (defined.inj e).2
    else isFalse fun e => h (defined.inj e).1
  | elementary _, leaf _ _ | elementary _, operator _ _ | elementary _, defined _ _
  | leaf _ _, elementary _ | leaf _ _, operator _ _ | leaf _ _, defined _ _
  | operator _ _, elementary _ | operator _ _, leaf _ _ | operator _ _, defined _ _
  | defined _ _, elementary _ | defined _ _, leaf _ _ | defined _ _, operator _ _ =>
    isFalse nofun

/-- Equality of lists of surface types. -/
def decEqList : (as bs : List Ty) → Decidable (as = bs)
  | [], [] => isTrue rfl
  | a :: as, b :: bs =>
    match decEq a b with
    | isTrue h =>
      match decEqList as bs with
      | isTrue h' => isTrue (by rw [h, h'])
      | isFalse h' => isFalse fun e => h' (List.cons.inj e).2
    | isFalse h => isFalse fun e => h (List.cons.inj e).1
  | [], _ :: _ | _ :: _, [] => isFalse nofun

end

instance : DecidableEq Ty := decEq

/-- The type without member names at its top. -/
def stripLeaf : Ty → Ty
  | leaf _ ty => ty.stripLeaf
  | ty => ty

/-- The member name, if the type is a named member. -/
def leafName? : Ty → Option String
  | leaf name _ => some name
  | _ => none

/-- The elementary type below the member names. -/
def elementary? : Ty → Option Elementary
  | elementary e => some e
  | leaf _ ty => ty.elementary?
  | _ => none

/-- The type is elementary up to member names. -/
def isElementary (ty : Ty) : Bool := ty.elementary?.isSome

/-- The type is `nil` up to member names. -/
def isNil (ty : Ty) : Bool := ty.elementary? == some .nil

/-- The connective at the top, looking through member names and definitions. -/
def operator? : Ty → Option Connective
  | elementary _ => none
  | leaf _ ty => ty.operator?
  | operator op _ => some op
  | defined _ body => body.operator?

/-- The type is a sum, perhaps under names and definitions. -/
def isSum (ty : Ty) : Bool := ty.operator? == some .sum

/-- The type is a product, perhaps under names and definitions. -/
def isProduct (ty : Ty) : Bool := ty.operator? == some .product

/-- The type is user-defined, up to member names. -/
def isDefined : Ty → Bool
  | leaf _ ty => ty.isDefined
  | defined _ _ => true
  | _ => false

/-- Values of the type have a layout of members. -/
def isComposite : Ty → Bool
  | elementary _ => false
  | leaf _ ty => ty.isComposite
  | operator op _ => op != .implication
  | defined _ _ => true

/-- The operands of a product or sum, up to member names. -/
def layoutOperands? : Ty → Option (List Ty)
  | elementary _ => none
  | leaf _ ty => ty.layoutOperands?
  | operator .implication _ => none
  | operator _ operands => some operands
  | defined _ _ => none

/-- The members of a composite type in declaration order.  A definition whose body is a product or sum has
the operands of the body, any other definition has its body as its only member. -/
def members : Ty → List Ty
  | elementary _ => []
  | leaf _ ty => ty.members
  | operator .implication _ => []
  | operator _ operands => operands
  | defined _ body => body.layoutOperands?.getD [body]

mutual

/-- The longest chain of types nested in one another. -/
def height : Ty → Nat
  | elementary _ => 0
  | leaf _ ty => ty.height + 1
  | operator _ operands => heightList operands + 1
  | defined _ body => body.height + 1

/-- The greatest height in a list. -/
def heightList : List Ty → Nat
  | [] => 0
  | ty :: tys => max ty.height (heightList tys)

end

theorem height_le_heightList {ty : Ty} {tys : List Ty} (h : ty ∈ tys) :
    ty.height ≤ heightList tys := by
  induction tys with
  | nil => cases h
  | cons t ts ih =>
    rw [heightList]
    rcases List.mem_cons.1 h with rfl | h
    · omega
    · have := ih h
      omega

theorem height_lt_of_mem_layoutOperands? {ty member : Ty} {operands : List Ty}
    (h : ty.layoutOperands? = some operands) (hm : member ∈ operands) :
    member.height < ty.height := by
  induction ty using layoutOperands?.induct with
  | case1 e => simp [layoutOperands?] at h
  | case2 name ty ih =>
    have := ih (by simpa [layoutOperands?] using h)
    rw [height]
    omega
  | case3 ops => simp [layoutOperands?] at h
  | case4 op ops hop =>
    have := height_le_heightList hm
    simp only [layoutOperands?, Option.some.injEq] at h
    subst h
    rw [height]
    omega
  | case5 name body => simp [layoutOperands?] at h

/-- A member is nested below the type it belongs to. -/
theorem height_lt_of_mem_members {ty member : Ty} (h : member ∈ ty.members) :
    member.height < ty.height := by
  induction ty using members.induct with
  | case1 e => simp [members] at h
  | case2 name ty ih =>
    have := ih (by simpa [members] using h)
    rw [height]
    omega
  | case3 ops => simp [members] at h
  | case4 op ops hop =>
    have := height_le_heightList (by simpa [members] using h)
    rw [height]
    omega
  | case5 name body =>
    rw [height]
    simp only [members] at h
    cases hb : body.layoutOperands? with
    | none =>
      simp only [hb, Option.getD_none, List.mem_singleton] at h
      subst h
      omega
    | some operands =>
      simp only [hb, Option.getD_some] at h
      have := height_lt_of_mem_layoutOperands? hb h
      omega

end Ty

end BlockForm
