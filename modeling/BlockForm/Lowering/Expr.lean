import BlockForm.Lowering.Construction
import BlockForm.Lowering.Coverage

/-!
# BlockForm.Lowering.Expr — expressions

Lowering an expression gives the value that holds its result: an elementary value itself, a composite by its
address, and the absent value for a call or match without a result.
-/

namespace BlockForm

/-- The instruction family of a binary operator. -/
inductive OperatorClass where
  | arith (op : ArithOp)
  | cmp (op : CmpOp)
  | logic (op : LogicOp)

/-- The family of a binary operator. -/
def BinaryOperator.class : BinaryOperator → OperatorClass
  | add => .arith .add
  | subtract => .arith .sub
  | multiply => .arith .mul
  | divide => .arith .div
  | equal => .cmp .eq
  | notEqual => .cmp .ne
  | less => .cmp .lt
  | lessEqual => .cmp .le
  | greater => .cmp .gt
  | greaterEqual => .cmp .ge
  | and => .logic .and
  | or => .logic .or

/-- The common type of two compared values: that of the other side for a constant that fits it, the right one
first, else the wider of the two, the left one on a tie. -/
def Function.comparisonType (f : Function) (lhs rhs : ValueId) (left right : LoweredType) :
    LoweredType :=
  let width (ty : LoweredType) : Nat := (ty.elementary?.bind Elementary.width?).getD 0
  if (Lowering.retypedConstant? f rhs left).isSome then left
  else if (Lowering.retypedConstant? f lhs right).isSome then right
  else if width left < width right then right
  else left

namespace Lowering

/-- A constant with the type analysis gave it if that is elementary and fits, else with its default type. -/
def lowerConstant (c : Constant) (ty : Ty) : Lowering ValueId :=
  match ty.elementary?.bind fun e => (c.retyped? e).map (·, e) with
  | some (typed, e) => constant typed e
  | none => constant c c.defaultType

/-- The value of a string literal. -/
def lowerLiteral (content : String) : Lowering ValueId := do
  let id ← inUnit (CompilationUnit.internLiteral content)
  let s ← Action.get
  let g ← Action.need (s.unit.globalAt? id) (.literalMissing id)
  inFunction (Function.literal id g)

/-- Joins two lowered operands. -/
def lowerOperator (op : BinaryOperator) (ty : Ty) (lhs rhs : ValueId) : Lowering ValueId := do
  match op.class with
  | .arith op =>
    let target ← lowerType ty
    let left ← coerce lhs target
    let right ← coerce rhs target
    emit (.arith op left right)
  | .cmp op =>
    let leftTy ← typeOf lhs
    let rightTy ← typeOf rhs
    let s ← Action.get
    let target := s.function.comparisonType lhs rhs leftTy rightTy
    let left ← coerce lhs target
    let right ← coerce rhs target
    emit (.cmp op left right)
  | .logic op =>
    let left ← coerce lhs (.elementary .bool)
    let right ← coerce rhs (.elementary .bool)
    emit (.logic op left right)

/-- Calls a function with lowered arguments; a composite result is put in a slot. -/
def finishCall (name : String) (args : List ValueId) : Lowering ValueId := do
  let result ← emit (.call name args)
  if result = Function.nilValue then return result
  else
    let ty ← typeOf result
    if ty.isComposite then
      let slot ← alloca ty
      store slot result
      return slot
    else return result

/-- A slot for the result of a match, unless it has none. -/
def resultSlot (ty : Ty) : Lowering (Option ValueId) := do
  let lowered ← lowerType ty
  if lowered.isNil then return none
  else
    let slot ← alloca lowered
    return some slot

mutual

/-- The value that holds the result of an expression. -/
def lowerExpr : Expr → Lowering ValueId
  | .constant c ty _ => lowerConstant c ty
  | .text content _ _ => lowerLiteral content
  | .ident name _ _ => do
    let slot ← slotOf name
    load slot
  | .binary op left right ty _ => do
    let lhs ← lowerExpr left
    let rhs ← lowerExpr right
    lowerOperator op ty lhs rhs
  | .call name args callee explicit ty _ =>
    if explicit then
      match args with
      | [arg] => do
        let target ← lowerType ty
        let v ← lowerExpr arg
        coerce v target
      | _ => Action.fault (.conversionArity name args.length)
    else if callee.isDefined then do
      let lowered ← lowerType ty
      let slot ← alloca lowered
      let site ← prepare slot (.of (args.map Expr.ty) ty)
      storeAll site 0 args
      return slot
    else do
      let values ← lowerArguments name callee args.length 0 args
      finishCall name values
  | .choice scrutinee cases ty _ => do
    let sum := scrutinee.ty
    if sum.isSum then
      match coverage sum [] cases with
      | .error e => Action.fail e
      | .ok indices =>
        let subject ← lowerExpr scrutinee
        let slot ← resultSlot ty
        let discriminant ← emit (.getUnionIdx subject)
        let targets ← caseTargets indices
        let fatal ← newBlock
        let join ← newBlock
        dispatch discriminant fatal (tests targets)
        lowerCases subject slot join targets cases
        startBlock fatal
        leave .unreachable
        startBlock join
        match slot with
        | some slot => load slot
        | none => return Function.nilValue
    else
      let name ← functionName
      Action.fault (.scrutineeNotUnion name sum.key)

/-- Lowers arguments and stores each at its place, from a position on. -/
def storeAll (site : FillSite) : (index : Nat) → List Expr → Lowering Unit
  | _, [] => pure ()
  | index, arg :: args => do
    let v ← lowerExpr arg
    storeArgument site index v
    storeAll site (index + 1) args

/-- The arguments of a call, from a position on.  An argument for a sum that is not of its type is built into a
fresh slot, any other is made to fit its parameter. -/
def lowerArguments (name : String) (callee : Ty) (total : Nat) :
    (position : Nat) → List Expr → Lowering (List ValueId)
  | _, [] => pure []
  | position, arg :: args => do
    let param ← Action.need (callee.parameter? position) (.unknownParameter name total position)
    let lowered ← lowerType param
    let v ←
      if param.isSum && !arg.ty.sameShape param then do
        let slot ← alloca lowered
        let site ← prepare slot (.of [arg.ty] param)
        let v ← lowerExpr arg
        storeArgument site 0 v
        pure slot
      else do
        let v ← lowerExpr arg
        coerce v lowered.asArgument
    let vs ← lowerArguments name callee total (position + 1) args
    return v :: vs

/-- The cases of a match, each in its block and with a scope of its own. -/
def lowerCases (subject : ValueId) (slot : Option ValueId) (join : BlockId) :
    List CaseTarget → List MatchCase → Lowering Unit
  | target :: targets, ⟨_, binding, body, _, span⟩ :: cases => do
    startBlock target.block
    inScope do
      match binding with
      | some name => bindPayload subject target.indices name span
      | none => pure ()
      let v ← lowerExpr body
      match slot with
      | some slot => store slot v
      | none => pure ()
    branchTo join
    lowerCases subject slot join targets cases
  | _, _ => pure ()

end

/-- Builds a value of type `ty` from arguments at an address. -/
def fill (memory : ValueId) (ty : Ty) (args : List Expr) : Lowering Unit := do
  let site ← prepare memory (.of (args.map Expr.ty) ty)
  storeAll site 0 args

end Lowering

end BlockForm
