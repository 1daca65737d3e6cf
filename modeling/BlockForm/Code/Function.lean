import BlockForm.Code.Operation
import BlockForm.Code.Value

/-!
# BlockForm.Code.Function — functions and their tables

A function without a layout is a plain declaration.  A definition owns its blocks, instructions and values;
the first value is the absent one, and the arguments follow it.
-/

namespace BlockForm

/-- A function of a unit. -/
structure Function where
  name : String
  arguments : List LoweredType
  returnType : LoweredType
  /-- The placed blocks in order, absent for a plain declaration. -/
  layout : Option (Array BlockId)
  blocks : Array Block
  instructions : Array Instruction
  values : Array Value
  names : NameTable
  argumentValues : Array ValueId
  endLabel : Option ValueId
  /-- Where every return leaves its value. -/
  returnSlot : Option ValueId
  /-- The values that stand for literals of the unit. -/
  literals : List (GlobalId × ValueId)
  nextVariable : Nat
  nextLabel : Nat

namespace Function

/-- The value that stands for the absence of one. -/
def nilValue : ValueId := ⟨0⟩

/-- A plain declaration. -/
def declaration (name : String) (arguments : List LoweredType) (returnType : LoweredType) :
    Function where
  name := name
  arguments := arguments
  returnType := returnType
  layout := none
  blocks := #[]
  instructions := #[]
  values := #[.nil]
  names := .empty
  argumentValues := #[]
  endLabel := none
  returnSlot := none
  literals := []
  nextVariable := 0
  nextLabel := 0

/-- The function has no body. -/
def isDeclaration (f : Function) : Bool := f.layout.isNone

/-- The placed blocks in order. -/
def blockIds (f : Function) : List BlockId := f.layout.elim [] Array.toList

/-- The block of a handle. -/
def block? (f : Function) (id : BlockId) : Option Block := f.blocks[id.index]?

/-- The placed blocks in order, handles without a block left out. -/
def placedBlocks (f : Function) : List Block := f.blockIds.filterMap f.block?

/-- The block with the given label text. -/
def blockNamed? (f : Function) (label : String) : Option Block :=
  match f.names.get? label with
  | some (.block id) => f.block? id
  | _ => none

/-- The instruction of a handle. -/
def instruction? (f : Function) (id : InstructionId) : Option Instruction :=
  f.instructions[id.index]?

/-- The instructions of a block in order, without its exit. -/
def instructionsOf (f : Function) (b : Block) : List Instruction :=
  b.instructions.toList.filterMap f.instruction?

/-- The value of a handle. -/
def value? (f : Function) (id : ValueId) : Option Value := f.values[id.index]?

/-- The type of a value. -/
def valueType? (f : Function) (id : ValueId) : Option LoweredType :=
  (f.value? id).bind Value.ty

/-- The constant a value stands for. -/
def constant? (f : Function) (id : ValueId) : Option Constant := (f.value? id).bind Value.constant?

/-- The block a label value names. -/
def labelTarget? (f : Function) (id : ValueId) : Option BlockId := (f.value? id).bind Value.label?

/-- The value of an argument. -/
def argumentValue? (f : Function) (position : Nat) : Option ValueId := f.argumentValues[position]?

/-- The position of the argument a value stands for. -/
def argumentPosition? (f : Function) (id : ValueId) : Option Nat :=
  (f.value? id).bind Value.argument?

/-- The identifier of a value, a question mark for an unknown one. -/
def idText (f : Function) (id : ValueId) : String := (f.value? id).elim "?" Value.id

end Function

end BlockForm
