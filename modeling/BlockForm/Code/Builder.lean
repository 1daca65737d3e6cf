import BlockForm.Action
import BlockForm.Code.Typing

/-!
# BlockForm.Code.Builder — adding blocks, values and instructions to a function

Every operation checks its request first and changes the function only if the request is sound.  Tables
only grow, and a block that has its exit takes nothing more.
-/

namespace BlockForm

/-- A step that changes a function. -/
abbrev Building := Action Function

/-- Binds a free name to an object. -/
def NameTable.bind (name : String) (object : Object) : Action NameTable Unit := fun t =>
  match t.get? name with
  | some existing =>
    ⟨.error (.internal (.nameTaken name)), t, [.nameClash name existing object]⟩
  | none => ⟨.ok (), t.insert name object, []⟩

namespace Function

/-- Binds a free name of the function to an object. -/
def bindName (name : String) (object : Object) : Building Unit := fun f =>
  let o := NameTable.bind name object f.names
  ⟨o.result, { f with names := o.state }, o.log⟩

/-- Adds a value. -/
def pushValue (v : Value) : Building ValueId := do
  let f ← Action.get
  let id ← Action.handle .value f.values.size
  Action.modify fun f => { f with values := f.values.push v }
  return id

/-- The next free identifier of a variable. -/
def freshVariable : Building String := fun f =>
  ⟨.ok ("$" ++ f.nextVariable.repr), { f with nextVariable := f.nextVariable + 1 }, []⟩

/-- The next free label. -/
def freshLabel : Building String := fun f =>
  ⟨.ok ("%label_" ++ f.nextLabel.repr), { f with nextLabel := f.nextLabel + 1 }, []⟩

/-- Adds the value of an argument. -/
def pushArgument (position : Nat) (ty : LoweredType) : Building Unit := do
  let id ← freshVariable
  bindName id (.argument position)
  let value ← pushValue ⟨.argument position, some ty, id⟩
  Action.modify fun f => { f with argumentValues := f.argumentValues.push value }

/-- Adds the values of arguments from a position on. -/
def pushArguments : (position : Nat) → List LoweredType → Building Unit
  | _, [] => pure ()
  | position, ty :: tys => do
    pushArgument position ty
    pushArguments (position + 1) tys

/-- A definition without blocks, its arguments being `$0`, `$1` and so on. -/
def definition (name : String) (arguments : List LoweredType) (returnType : LoweredType) :
    Outcome Function Unit :=
  pushArguments 0 arguments { declaration name arguments returnType with layout := some #[] }

/-- Makes a block and its label; the block is not placed yet. -/
def newBlock : Building BlockId := do
  let f ← Action.get
  if f.isDeclaration then Action.fault (.blockInDeclaration f.name)
  else
    let block ← Action.handle .block f.blocks.size
    let id ← freshLabel
    bindName id (.block block)
    let label ← pushValue ⟨.label block, none, id⟩
    Action.modify fun f => { f with blocks := f.blocks.push ⟨label, #[], none⟩ }
    return block

/-- Places a block after the ones placed before. -/
def appendBlock (block : BlockId) : Building Unit := do
  let f ← Action.get
  match f.layout with
  | none => Action.fault (.placementInDeclaration f.name)
  | some layout =>
    if layout.contains block then Action.fault (.blockPlacedTwice block f.name)
    else Action.set { f with layout := some (layout.push block) }

/-- The label of a block. -/
def labelOf (block : BlockId) : Building ValueId := do
  let f ← Action.get
  match f.block? block with
  | some b => return b.label
  | none => Action.fault (.unknownBlock block f.name)

/-- Adds a constant of the given type. -/
def constant (c : Constant) (e : Elementary) : Building ValueId :=
  pushValue ⟨.constant c, some (.elementary e), c.text⟩

/-- The value that stands for a literal, made on first use. -/
def literal (id : GlobalId) (g : Global) : Building ValueId := do
  let f ← Action.get
  match f.literals.lookup id with
  | some v => return v
  | none =>
    let v ← pushValue ⟨.literal id g.content, some g.ty, g.name⟩
    Action.modify fun f => { f with literals := f.literals ++ [(id, v)] }
    return v

/-- The block, if it can take more instructions. -/
def openBlock (f : Function) (block : BlockId) : Except Fault Block :=
  match f.block? block with
  | none => .error (.unknownBlock block f.name)
  | some b => if b.isTerminated then .error (.blockClosed block f.name) else .ok b

/-- Changes a block that can take more. -/
def updateBlock (block : BlockId) (change : Block → Block) : Building Unit := do
  let f ← Action.get
  let b ← Action.check (f.openBlock block)
  Action.set { f with blocks := f.blocks.setIfInBounds block.index (change b) }

/-- Adds an instruction to no block yet, with a value for its result if it has one. -/
def newInstruction (operation : Operation) (ty : Option LoweredType) :
    Building InstructionId := do
  let f ← Action.get
  let id ← Action.handle .instruction f.instructions.size
  let value ←
    match ty with
    | none => pure nilValue
    | some ty => do
      let name ← freshVariable
      bindName name (.instruction id)
      pushValue ⟨.result id, some ty, name⟩
  Action.modify fun f => { f with instructions := f.instructions.push ⟨operation, value⟩ }
  return id

/-- The value of an instruction, the absent one for an unknown instruction. -/
def resultOf (f : Function) (id : InstructionId) : ValueId :=
  (f.instruction? id).elim nilValue Instruction.value

/-- Adds an instruction at the end of a block and gives its result. -/
def pushInstruction (u : CompilationUnit) (block : BlockId) (operation : Operation) :
    Building ValueId := do
  if operation.isTerminator then Action.fault (.exitAsInstruction operation.mnemonic)
  else
    let f ← Action.get
    let _ ← Action.check (f.openBlock block)
    let ty ← Action.check (f.resultType u operation)
    let id ← newInstruction operation ty
    let f ← Action.get
    let value := f.resultOf id
    Action.report (.instructionAdded f.name operation.mnemonic (f.idText value))
    updateBlock block fun b => { b with instructions := b.instructions.push id }
    return value

/-- The value is the label of a block. -/
def checkLabel (f : Function) (v : ValueId) : Except Fault Unit :=
  match f.labelTarget? v with
  | some _ => .ok ()
  | none => .error (.targetNotLabel v f.name)

/-- The operands of an exit fit it. -/
def checkExit (f : Function) : Exit → Except Fault Unit
  | .branch target => f.checkLabel target
  | .condBranch condition taken otherwise => do
    let ty ← f.operandType condition
    if ty.isBool then
      f.checkLabel taken
      f.checkLabel otherwise
    else .error (.conditionNotBool (f.idText condition) f.name)
  | .give _ | .unreachable => .ok ()

/-- Ends a block. -/
def setExit (block : BlockId) (exit : Exit) : Building Unit := do
  let f ← Action.get
  Action.check (f.checkExit exit)
  updateBlock block fun b => { b with exit := some exit }

/-- Ends a block with a return. -/
def setReturn (u : CompilationUnit) (block : BlockId) (value : Option ValueId) :
    Building Unit := do
  let f ← Action.get
  let _ ← Action.check (f.openBlock block)
  let _ ← Action.check (f.resultType u (.give value))
  let id ← newInstruction (.give value) none
  setExit block (.give id)

/-- Says which label marks the end of the function. -/
def setEndLabel (label : ValueId) : Building Unit :=
  Action.modify fun f => { f with endLabel := some label }

/-- Says where returns leave their value. -/
def setReturnSlot (slot : ValueId) : Building Unit :=
  Action.modify fun f => { f with returnSlot := some slot }

end Function

end BlockForm
