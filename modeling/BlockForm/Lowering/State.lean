import BlockForm.Lowering.Types

/-!
# BlockForm.Lowering.State — the state of lowering one function

Instructions go to the end of the current block.  Every name in scope stands for a slot: the address at which
the named value is kept.
-/

namespace BlockForm

/-- The names of one scope with their slots, the latest first. -/
abbrev Scope := List (String × ValueId)

/-- The state of lowering one function. -/
structure LoweringState where
  unit : CompilationUnit
  function : Function
  /-- The block that takes the next instruction. -/
  current : BlockId
  /-- The block that holds the return. -/
  endBlock : BlockId
  /-- The open scopes, the innermost first. -/
  scopes : List Scope

/-- A step of lowering. -/
abbrev Lowering := Action LoweringState

namespace Lowering

variable {α : Type}

/-- A step on the unit. -/
def inUnit (x : CompilationUnit.Interning α) : Lowering α := fun ⟨u, f, current, endBlock, scopes⟩ =>
  let o := x u
  ⟨o.result, ⟨o.state, f, current, endBlock, scopes⟩, o.log⟩

/-- A step on the function. -/
def inFunction (x : Building α) : Lowering α := fun ⟨u, f, current, endBlock, scopes⟩ =>
  let o := x f
  ⟨o.result, ⟨u, o.state, current, endBlock, scopes⟩, o.log⟩

/-- The name of the function. -/
def functionName : Lowering String := do
  let s ← Action.get
  return s.function.name

/-- A step with a scope of its own. -/
def inScope (x : Lowering α) : Lowering α := fun s =>
  let o := x { s with scopes := [] :: s.scopes }
  ⟨o.result, { o.state with scopes := o.state.scopes.tail }, o.log⟩

/-- Gives a name a slot in the innermost scope. -/
def define (name : String) (slot : ValueId) : Lowering Unit :=
  Action.modify fun s =>
    match s.scopes with
    | [] => s
    | scope :: rest => { s with scopes := ((name, slot) :: scope) :: rest }

/-- The slot of a name, from the innermost scope that has it. -/
def slotOf (name : String) : Lowering ValueId := do
  let s ← Action.get
  Action.need (s.scopes.findSome? (List.lookup name)) (.unboundName name s.function.name)

/-- The lowered form of a type. -/
def lowerType (ty : Ty) : Lowering LoweredType := inUnit (CompilationUnit.lowerType ty)

/-- The type of a value. -/
def typeOf (v : ValueId) : Lowering LoweredType := do
  let s ← Action.get
  Action.check (s.function.operandType v)

/-- Adds a constant. -/
def constant (c : Constant) (e : Elementary) : Lowering ValueId := inFunction (Function.constant c e)

/-- Makes a block. -/
def newBlock : Lowering BlockId := inFunction Function.newBlock

/-- Adds an instruction to the current block. -/
def emit (operation : Operation) : Lowering ValueId := fun ⟨u, f, current, endBlock, scopes⟩ =>
  let o := Function.pushInstruction u current operation f
  ⟨o.result, ⟨u, o.state, current, endBlock, scopes⟩, o.log⟩

/-- The current block has its exit. -/
def isTerminated : Lowering Bool := do
  let s ← Action.get
  return (s.function.block? s.current).any Block.isTerminated

/-- Ends the current block. -/
def leave (exit : Exit) : Lowering Unit := do
  let s ← Action.get
  inFunction (Function.setExit s.current exit)

/-- Places a block and goes on in it. -/
def startBlock (block : BlockId) : Lowering Unit := do
  inFunction (Function.appendBlock block)
  Action.modify fun s => { s with current := block }

/-- Goes to a block, unless the current one has its exit already. -/
def branchTo (block : BlockId) : Lowering Unit := do
  if ← isTerminated then return ()
  else
    let target ← inFunction (Function.labelOf block)
    leave (.branch target)

/-- Goes to one of two blocks. -/
def branchOn (condition : ValueId) (taken otherwise : BlockId) : Lowering Unit := do
  let takenLabel ← inFunction (Function.labelOf taken)
  let otherwiseLabel ← inFunction (Function.labelOf otherwise)
  leave (.condBranch condition takenLabel otherwiseLabel)

/-- A slot for one value. -/
def alloca (ty : LoweredType) : Lowering ValueId := emit (.alloca ty 1)

/-- The constant a value stands for as one of the given type, if it can be. -/
def retypedConstant? (f : Function) (v : ValueId) (target : LoweredType) :
    Option (Constant × Elementary) :=
  if target.isPointer then none
  else
    match f.constant? v, target.elementary? with
    | some c, some e => (c.retyped? e).map (·, e)
    | _, _ => none

/-- The value as one of the given type.  A constant is made again with the type if it fits, any other elementary
value is converted. -/
def coerce (v : ValueId) (target : LoweredType) : Lowering ValueId := do
  let ty ← typeOf v
  if ty = target then return v
  else
    let s ← Action.get
    match retypedConstant? s.function v target with
    | some (c, e) => constant c e
    | none =>
      if ty.isScalar && target.isScalar then emit (.convert v target)
      else
        Action.fault (.noConversion (s.unit.typeText ty) (s.unit.typeText target) s.function.name)

/-- Stores a value in a slot.  A composite is held by its address and is read before it is written. -/
def store (slot v : ValueId) : Lowering Unit := do
  let slotTy ← typeOf slot
  let ty ← typeOf v
  let content ←
    if ty.isComposite && ty.isPointer && ty.sameKind slotTy then emit (.read v)
    else coerce v slotTy.pointee
  let _ ← emit (.write slot content)

/-- The value in a slot: an elementary value is read, a composite stays at its address. -/
def load (slot : ValueId) : Lowering ValueId := do
  let ty ← typeOf slot
  if ty.isComposite then return slot else emit (.read slot)

end Lowering

end BlockForm
