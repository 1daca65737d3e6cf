import BlockForm.Code.Unit
import BlockForm.Diagnostic.Fault

/-!
# BlockForm.Code.Typing — which operands an operation takes and what it produces

`resultType` is the instruction table: for each operation, the operands it accepts in a function of a unit and
the type of its result, absent for operations done for their effect.
-/

namespace BlockForm

namespace Function

/-- The type of a value used as an operand; the absent value and labels have none. -/
def operandType (f : Function) (v : ValueId) : Except Fault LoweredType :=
  match f.value? v with
  | none => .error (.unknownValue v f.name)
  | some value =>
    match value.ty with
    | some ty => .ok ty
    | none => .error (.notAnOperand value.id f.name)

/-- The typedef at the address an operand holds. -/
def compositeOperand (f : Function) (u : CompilationUnit) (mnemonic : String) (v : ValueId) :
    Except Fault TypeDef := do
  let ty ← f.operandType v
  let typedef := if ty.isPointer then ty.typedef?.bind u.typedefAt? else none
  match typedef with
  | some t => .ok t
  | none => .error (.notACompositePointer mnemonic f.name (f.idText v) (u.typeText ty))

/-- The union at the address an operand holds. -/
def unionOperand (f : Function) (u : CompilationUnit) (mnemonic : String) (v : ValueId) :
    Except Fault TypeDef := do
  let t ← f.compositeOperand u mnemonic v
  if t.isUnion then .ok t else .error (.notAUnion mnemonic t.name f.name)

/-- The type of the address of a member. -/
def memberPointer (f : Function) (t : TypeDef) (index : Nat) : Except Fault LoweredType :=
  match t.members[index]? with
  | some m => .ok m.ty.pointerTo
  | none => .error (.memberOutOfRange index t.name t.members.length f.name)

/-- A constant discriminant names a member; any other value may. -/
def discriminantInRange (f : Function) (t : TypeDef) (index : ValueId) : Bool :=
  match f.constant? index with
  | some (.int i) => 0 ≤ i.toInt && i.toInt < t.members.length
  | _ => true

/-- The fault of two operands that do not go together. -/
def operandMismatch (f : Function) (u : CompilationUnit) (mnemonic : String)
    (left right : ValueId) : Fault :=
  let shown (v : ValueId) : String := (f.valueType? v).elim "nothing" u.typeText
  .operandMismatch mnemonic f.name (f.idText left) (shown left) (f.idText right) (shown right)

/-- Each argument has exactly the type of its parameter. -/
def checkArguments (f : Function) (u : CompilationUnit) (callee : String) :
    List ValueId → List LoweredType → Except Fault Unit
  | arg :: args, expected :: rest => do
    let actual ← f.operandType arg
    if actual = expected then f.checkArguments u callee args rest
    else
      .error (.argumentType (f.idText arg) callee (u.typeText actual) (u.typeText expected))
  | _, _ => .ok ()

/-- The type of the result of an operation, or the rule its operands break. -/
def resultType (f : Function) (u : CompilationUnit) (operation : Operation) :
    Except Fault (Option LoweredType) :=
  match operation with
  | .alloca ty count =>
    if ty.isPointer ∨ count = 0 then .error (.invalidAlloca count (u.typeText ty) f.name)
    else .ok (some ty.pointerTo)
  | .read memory => do
    let ty ← f.operandType memory
    if ty.isPointer then .ok (some ty.pointee)
    else .error (.readOutsideMemory (f.idText memory) f.name)
  | .write memory value => do
    let target ← f.operandType memory
    let source ← f.operandType value
    if target.isPointer ∧ source = target.pointee then .ok none
    else
      .error (.writeMismatch (f.idText value) (u.typeText source) (f.idText memory)
        (u.typeText target) f.name)
  | .objMemberAt object index => do
    let t ← f.compositeOperand u operation.mnemonic object
    if t.isUnion then .error (.memberOfUnion t.name f.name)
    else return some (← f.memberPointer t index)
  | .unionMemberAt target index => do
    let t ← f.unionOperand u operation.mnemonic target
    return some (← f.memberPointer t index)
  | .setUnionIdx target index => do
    let t ← f.unionOperand u operation.mnemonic target
    let ty ← f.operandType index
    if ty.isInteger ∧ f.discriminantInRange t index then .ok none
    else .error (.invalidDiscriminant (f.idText index) t.name f.name)
  | .getUnionIdx target => do
    let _ ← f.unionOperand u operation.mnemonic target
    return some (.elementary .i64)
  | .convert value target => do
    let source ← f.operandType value
    if source.isScalar ∧ target.isScalar then .ok (some target)
    else
      .error (.convertMismatch (f.idText value) (u.typeText source) (u.typeText target) f.name)
  | .call name args =>
    match u.function? name with
    | none => .error (.undeclaredCallee name f.name)
    | some callee =>
      if callee.arguments.length ≠ args.length then
        .error (.argumentCount name callee.arguments.length args.length f.name)
      else do
        f.checkArguments u name args callee.arguments
        return if callee.returnType.isNil then none else some callee.returnType
  | .arith _ left right => do
    let l ← f.operandType left
    let r ← f.operandType right
    if l.isNumeric ∧ l = r then .ok (some l)
    else .error (f.operandMismatch u operation.mnemonic left right)
  | .cmp _ left right => do
    let l ← f.operandType left
    let r ← f.operandType right
    if l.isScalar ∧ l = r then .ok (some (.elementary .bool))
    else .error (f.operandMismatch u operation.mnemonic left right)
  | .logic _ left right => do
    let l ← f.operandType left
    let r ← f.operandType right
    if l.isBool ∧ r.isBool then .ok (some l)
    else .error (f.operandMismatch u operation.mnemonic left right)
  | .give none =>
    if f.returnType.isNil then .ok none
    else .error (.returnMismatch f.name (u.typeText f.returnType))
  | .give (some value) => do
    let ty ← f.operandType value
    if ty = f.returnType then .ok none
    else .error (.returnMismatch f.name (u.typeText f.returnType))

end Function

end BlockForm
