import BlockForm.Lowering.Expr
import BlockForm.Surface.Module

/-!
# BlockForm.Lowering.Statement — statements

A statement that ends the current block makes the rest of its list unreachable, and the rest is left out.
-/

namespace BlockForm

namespace Lowering

/-- Puts the first value of a variable in its slot.  A constructed value of the declared type is built in
place. -/
def fillInitial (slot : ValueId) (ty : Ty) (e : Expr) : Lowering Unit := do
  match e with
  | .call _ args callee _ ety _ =>
    if callee.isDefined && ety.sameShape ty then fill slot ety args
    else
      let v ← lowerExpr e
      store slot v
  | e =>
    let v ← lowerExpr e
    store slot v

/-- Puts the returned value in its slot and goes to the end block. -/
def lowerReturn (value : Option Expr) : Lowering Unit := do
  let s ← Action.get
  match value, s.function.returnSlot with
  | some e, some slot =>
    let v ← lowerExpr e
    store slot v
  | none, none => pure ()
  | _, _ => Action.fault (.returnStatement s.function.name)
  branchTo s.endBlock

mutual

/-- Lowers a statement. -/
def lowerStatement : Statement → Lowering Unit
  | .declare name ty initial _ => do
    let lowered ← lowerType ty
    let slot ← alloca lowered
    match initial with
    | some e => fillInitial slot ty e
    | none => pure ()
    define name slot
  | .assign name value _ => do
    let slot ← slotOf name
    let v ← lowerExpr value
    store slot v
  | .give value _ => lowerReturn value
  | .branch condition whenTrue (some whenFalse) _ => do
    let c ← lowerExpr condition
    let c ← coerce c (.elementary .bool)
    let thenBlock ← newBlock
    let elseBlock ← newBlock
    let join ← newBlock
    branchOn c thenBlock elseBlock
    startBlock thenBlock
    lowerBody whenTrue
    branchTo join
    startBlock elseBlock
    lowerBody whenFalse
    branchTo join
    startBlock join
  | .branch condition whenTrue none _ => do
    let c ← lowerExpr condition
    let c ← coerce c (.elementary .bool)
    let thenBlock ← newBlock
    let join ← newBlock
    branchOn c thenBlock join
    startBlock thenBlock
    lowerBody whenTrue
    branchTo join
    startBlock join
  | .effect value => do
    let _ ← lowerExpr value

/-- Lowers statements in a scope of their own. -/
def lowerBody : Body → Lowering Unit
  | ⟨statements, _, _⟩ => inScope (lowerStatements statements)

/-- Lowers statements up to the first that ends the current block. -/
def lowerStatements : List Statement → Lowering Unit
  | [] => pure ()
  | statement :: rest => do
    lowerStatement statement
    if ← isTerminated then
      if rest.isEmpty then return ()
      else
        let name ← functionName
        Action.report (.statementsSkipped name rest.length)
    else lowerStatements rest

end

end Lowering

end BlockForm
