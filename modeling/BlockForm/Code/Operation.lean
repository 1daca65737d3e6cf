import BlockForm.Code.LoweredType

/-!
# BlockForm.Code.Operation — instructions and block exits
-/

namespace BlockForm

/-- Arithmetic operators. -/
inductive ArithOp where
  | add | sub | mul | div
  deriving DecidableEq

/-- Comparison operators. -/
inductive CmpOp where
  | eq | ne | lt | le | gt | ge
  deriving DecidableEq

/-- Logical operators. -/
inductive LogicOp where
  | and | or
  deriving DecidableEq

/-- The mnemonic of an arithmetic operator. -/
def ArithOp.mnemonic : ArithOp → String
  | add => "add"
  | sub => "sub"
  | mul => "mul"
  | div => "div"

/-- The mnemonic of a comparison. -/
def CmpOp.mnemonic : CmpOp → String
  | eq => "cmpeq"
  | ne => "cmpne"
  | lt => "cmplt"
  | le => "cmple"
  | gt => "cmpgt"
  | ge => "cmpge"

/-- The mnemonic of a logical operator. -/
def LogicOp.mnemonic : LogicOp → String
  | and => "logic_and"
  | or => "logic_or"

/-- The arithmetic operator with a mnemonic. -/
def ArithOp.ofMnemonic? (m : String) : Option ArithOp :=
  [add, sub, mul, div].find? fun op => op.mnemonic == m

/-- The comparison with a mnemonic. -/
def CmpOp.ofMnemonic? (m : String) : Option CmpOp :=
  [eq, ne, lt, le, gt, ge].find? fun op => op.mnemonic == m

/-- The logical operator with a mnemonic. -/
def LogicOp.ofMnemonic? (m : String) : Option LogicOp :=
  [and, or].find? fun op => op.mnemonic == m

/-- What an instruction does. -/
inductive Operation where
  /-- A stack slot for `count` values of a type. -/
  | alloca (ty : LoweredType) (count : Nat)
  /-- The value at an address. -/
  | read (memory : ValueId)
  /-- Stores a value at an address. -/
  | write (memory value : ValueId)
  /-- The address of a member of a product. -/
  | objMemberAt (object : ValueId) (index : Nat)
  /-- Stores which member of a union is present. -/
  | setUnionIdx (target index : ValueId)
  /-- Which member of a union is present. -/
  | getUnionIdx (target : ValueId)
  /-- The address of the payload of a union. -/
  | unionMemberAt (target : ValueId) (index : Nat)
  /-- The value as one of another elementary type. -/
  | convert (value : ValueId) (target : LoweredType)
  /-- The call of a function of the unit. -/
  | call (name : String) (args : List ValueId)
  | arith (op : ArithOp) (left right : ValueId)
  | cmp (op : CmpOp) (left right : ValueId)
  | logic (op : LogicOp) (left right : ValueId)
  /-- Leaves the function; only ever the exit of a block. -/
  | give (value : Option ValueId)
  deriving DecidableEq

namespace Operation

/-- The mnemonic of an operation in the textual form. -/
def mnemonic : Operation → String
  | alloca _ _ => "alloca"
  | read _ => "read"
  | write _ _ => "write"
  | objMemberAt _ _ => "objmemberat"
  | setUnionIdx _ _ => "setunionidx"
  | getUnionIdx _ => "getunionidx"
  | unionMemberAt _ _ => "unionmemberat"
  | convert _ _ => "convert"
  | call _ _ => "call"
  | arith op _ _ => op.mnemonic
  | cmp op _ _ => op.mnemonic
  | logic op _ _ => op.mnemonic
  | give _ => "return"

/-- The values an operation reads, in order. -/
def operands : Operation → List ValueId
  | alloca _ _ => []
  | read memory => [memory]
  | write memory value => [memory, value]
  | objMemberAt object _ => [object]
  | setUnionIdx target index => [target, index]
  | getUnionIdx target => [target]
  | unionMemberAt target _ => [target]
  | convert value _ => [value]
  | call _ args => args
  | arith _ left right | cmp _ left right | logic _ left right => [left, right]
  | give value => value.toList

/-- The operation on two operands with a mnemonic. -/
def ofMnemonic? (m : String) (left right : ValueId) : Option Operation :=
  match ArithOp.ofMnemonic? m, CmpOp.ofMnemonic? m, LogicOp.ofMnemonic? m with
  | some op, _, _ => some (arith op left right)
  | none, some op, _ => some (cmp op left right)
  | none, none, some op => some (logic op left right)
  | none, none, none => none

/-- The operation ends its block. -/
def isTerminator : Operation → Bool
  | give _ => true
  | _ => false

end Operation

/-- An operation with the value it produces: the absent one if there is no result. -/
structure Instruction where
  operation : Operation
  value : ValueId
  deriving DecidableEq

/-- How control leaves a block. -/
inductive Exit where
  | branch (target : ValueId)
  | condBranch (condition taken otherwise : ValueId)
  /-- Through a return instruction. -/
  | give (instruction : InstructionId)
  /-- Never, unless the code is broken. -/
  | unreachable
  deriving DecidableEq

/-- The labels an exit may lead to. -/
def Exit.targets : Exit → List ValueId
  | branch target => [target]
  | condBranch _ taken otherwise => [taken, otherwise]
  | give _ | unreachable => []

/-- The condition an exit looks at. -/
def Exit.conditions : Exit → List ValueId
  | condBranch condition _ _ => [condition]
  | branch _ | give _ | unreachable => []

/-- Instructions in a row that end in one exit. -/
structure Block where
  label : ValueId
  /-- In execution order, without the exit. -/
  instructions : Array InstructionId
  exit : Option Exit
  deriving DecidableEq

/-- The block can take no more instructions. -/
def Block.isTerminated (b : Block) : Bool := b.exit.isSome

end BlockForm
