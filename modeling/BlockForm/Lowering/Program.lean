import BlockForm.Code.Verifier
import BlockForm.Lowering.Statement

/-!
# BlockForm.Lowering.Program — functions and modules

Types and signatures are lowered first, so that calls can be typed whatever the order of the items; bodies
follow.  A user error ends the item it is in and is kept for the final report, a fault ends the whole pass.

A function keeps one return: the entry block makes the return slot and copies the arguments into slots of their
own, every return writes the slot and goes to the end block, and the end block reads it back.
-/

namespace BlockForm

namespace Lowering

/-- Copies the arguments into slots named after the parameters, from a position on. -/
def spillArguments (function : String) : (position : Nat) → List Param → Lowering Unit
  | _, [] => pure ()
  | position, param :: params => do
    let s ← Action.get
    let argument ←
      Action.need (s.function.argumentValue? position) (.missingArgument position function)
    let ty ← typeOf argument
    let slot ← alloca ty.pointee
    store slot argument
    define param.name slot
    spillArguments function (position + 1) params

/-- The slot for the returned value, if the function returns one. -/
def prepareReturn : Lowering Unit := do
  let s ← Action.get
  if s.function.returnType.isNil then return ()
  else
    let slot ← alloca s.function.returnType
    inFunction (Function.setReturnSlot slot)

/-- Reads the returned value back and returns. -/
def finishReturn : Lowering Unit := do
  let s ← Action.get
  let value ←
    match s.function.returnSlot with
    | some slot => do
      let v ← emit (.read slot)
      pure (some v)
    | none => pure none
  inFunction (Function.setReturn s.unit s.current value)

/-- Lowers the body of a function. -/
def lowerFunctionBody (item : FunctionItem) : Lowering Unit := do
  prepareReturn
  spillArguments item.signature.name 0 item.signature.params
  lowerBody item.body
  let s ← Action.get
  branchTo s.endBlock
  startBlock s.endBlock
  finishReturn

end Lowering

namespace Function

/-- Makes the entry block, which is placed, and the end block, which is not yet. -/
def openBody : Building (BlockId × BlockId) := do
  let entry ← newBlock
  appendBlock entry
  let endBlock ← newBlock
  let label ← labelOf endBlock
  setEndLabel label
  return (entry, endBlock)

end Function

namespace CompilationUnit

/-- The lowered parameter types, composites by address. -/
def lowerParams : List Param → Interning (List LoweredType)
  | [] => pure []
  | param :: params => do
    let ty ← lowerType param.ty
    let tys ← lowerParams params
    return ty.asArgument :: tys

/-- The lowered types of the arguments and the result. -/
def lowerSignature (s : Signature) : Interning (List LoweredType × LoweredType) := do
  let arguments ← lowerParams s.params
  let result ← lowerType s.result
  return (arguments, result)

/-- Adds the declaration of a function. -/
def declareFunction (s : Signature) : Interning Unit := do
  let (arguments, result) ← lowerSignature s
  let _ ← addFunction (.declaration s.name arguments result)

/-- The finished definition of a function whose signature has been lowered. -/
def defineFunction (item : FunctionItem) (arguments : List LoweredType) (result : LoweredType) :
    Interning Function := fun u =>
  let opened := Function.definition item.signature.name arguments result
  match opened.result with
  | .error e => ⟨.error e, u, opened.log⟩
  | .ok () =>
    let blocks := Function.openBody opened.state
    match blocks.result with
    | .error e => ⟨.error e, u, opened.log ++ blocks.log⟩
    | .ok (entry, endBlock) =>
      let o := Lowering.lowerFunctionBody item ⟨u, blocks.state, entry, endBlock, [[]]⟩
      ⟨o.result.map fun _ => o.state.function, o.state.unit, opened.log ++ blocks.log ++ o.log⟩

/-- Lowers a function and puts it in the place of its declaration. -/
def lowerFunction (item : FunctionItem) : Interning Unit := do
  Action.report (.functionStarted item.signature.name)
  let (arguments, result) ← lowerSignature item.signature
  let f ← defineFunction item arguments result
  Action.report (.functionFinished f.name f.blockIds.length f.values.size)
  let _ ← addFunction f

/-- Types and signatures. -/
def declareItem : Item → Interning Unit
  | .type t => do
    let _ ← lowerType t.ty
  | .function f => declareFunction f.signature
  | .foreign s => declareFunction s

/-- Bodies. -/
def lowerItem : Item → Interning Unit
  | .function f => lowerFunction f
  | .type _ | .foreign _ => pure ()

/-- A step whose user error is handed on as a result. -/
def collecting (x : Interning Unit) : Interning (List Error) := fun u =>
  match x u with
  | ⟨.ok (), u', log⟩ => ⟨.ok [], u', log⟩
  | ⟨.error e, u', log⟩ => if e.isInternal then ⟨.error e, u', log⟩ else ⟨.ok [e], u', log⟩

/-- The user errors of a step on each item. -/
def collectingAll (step : Item → Interning Unit) : List Item → Interning (List Error)
  | [] => pure []
  | item :: items => do
    let errors ← collecting (step item)
    let rest ← collectingAll step items
    return errors ++ rest

/-- Verifies the finished unit, if the options ask for it. -/
def verifyFinished (m : Module) : Interning Unit := do
  let u ← Action.get
  if u.options.verify then
    let found ← verify
    if found.isEmpty then return ()
    else Action.fault (.verification m.name (found.map Violation.message))
  else return ()

/-- Lowers a module into the unit. -/
def lowerProgram (m : Module) : Interning Unit := do
  Action.report (.moduleStarted m.name m.items.length)
  let declaring ← collectingAll declareItem m.items
  let lowering ← collectingAll lowerItem m.items
  let errors := declaring ++ lowering
  if errors.isEmpty then
    verifyFinished m
    let u ← Action.get
    Action.report
      (.moduleFinished m.name u.functions.size u.typedefs.size u.globals.size)
  else Action.fail (.failed m.name errors)

end CompilationUnit

/-- Lowers a module into a fresh unit with the given name. -/
def Module.lowerAs (name : String) (m : Module) (options : Options) :
    Outcome CompilationUnit Unit :=
  (CompilationUnit.lowerProgram m).run (.empty name options)

/-- The unit a module lowers to. -/
def Module.lower (m : Module) (options : Options) : Except Error CompilationUnit :=
  let o := m.lowerAs m.name options
  o.result.map fun _ => o.state

end BlockForm
