import BlockForm.Code.Handle

/-!
# BlockForm.Diagnostic.Fault — broken invariants

A fault says that the program handed to lowering, or lowering itself, broke a rule that analysis should have
ensured.  Each cause is a constructor that carries the names to be shown; `Fault.message` words it.
-/

namespace BlockForm

/-- A broken invariant. -/
inductive Fault where
  | tooManyObjects (kind : HandleKind)
  | nameTaken (name : String)
  | typedefTwice (key : String)
  | notAValueType (ty : String)
  | blockInDeclaration (function : String)
  | placementInDeclaration (function : String)
  | blockPlacedTwice (block : BlockId) (function : String)
  | unknownBlock (block : BlockId) (function : String)
  | blockClosed (block : BlockId) (function : String)
  | exitAsInstruction (mnemonic : String)
  | conditionNotBool (condition function : String)
  | targetNotLabel (target : ValueId) (function : String)
  | unknownValue (value : ValueId) (function : String)
  | notAnOperand (value function : String)
  | notACompositePointer (mnemonic function value ty : String)
  | notAUnion (mnemonic typedef function : String)
  | memberOfUnion (typedef function : String)
  | memberOutOfRange (index : Nat) (typedef : String) (count : Nat) (function : String)
  | invalidAlloca (count : Nat) (ty function : String)
  | readOutsideMemory (value function : String)
  | writeMismatch (value valueTy memory memoryTy function : String)
  | invalidDiscriminant (value typedef function : String)
  | convertMismatch (value source target function : String)
  | undeclaredCallee (callee function : String)
  | argumentCount (callee : String) (expected passed : Nat) (function : String)
  | argumentType (value callee actual expected : String)
  | operandMismatch (mnemonic function left leftTy right rightTy : String)
  | returnMismatch (function ty : String)
  | unboundName (name function : String)
  | noConversion (source target function : String)
  | noBuildableMember (ty : String) (arguments : List String)
  | notBuildable (ty : String) (arguments : Nat)
  | constructorArity (ty : String) (members arguments : Nat)
  | memberIndexRange (index : Nat)
  | unionMemberRange (index : Nat)
  | conversionArity (target : String) (arguments : Nat)
  | unknownParameter (callee : String) (arguments position : Nat)
  | literalMissing (literal : GlobalId)
  | scrutineeNotUnion (function ty : String)
  | missingArgument (position : Nat) (function : String)
  | returnStatement (function : String)
  | verification (unit : String) (violations : List String)
  /-- A fault known by its wording alone. -/
  | reported (text : String)
  deriving DecidableEq

/-- How a table's kind of handle is called in messages. -/
def HandleKind.label : HandleKind → String
  | value => "ValueId"
  | instruction => "ExprId"
  | block => "BlockId"
  | typedef => "TypeDefId"
  | global => "GlobalId"
  | function => "FunctionId"

/-- A text between single quotes. -/
def inQuotes (text : String) : String := "'" ++ text ++ "'"

/-- The wording of a fault. -/
def Fault.message : Fault → String
  | tooManyObjects kind => "too many objects for a " ++ kind.label
  | nameTaken name => "identifier " ++ inQuotes name ++ " is already defined"
  | typedefTwice key => "typedef for " ++ inQuotes key ++ " created twice"
  | notAValueType ty => "type " ++ inQuotes ty ++ " cannot be lowered to a value type"
  | blockInDeclaration fn => "cannot create a block in plain declaration " ++ inQuotes fn
  | placementInDeclaration fn => "cannot append a block to plain declaration " ++ inQuotes fn
  | blockPlacedTwice block fn =>
    "block #" ++ block.index.repr ++ " appended twice to " ++ inQuotes fn
  | unknownBlock block fn => "unknown block #" ++ block.index.repr ++ " in " ++ inQuotes fn
  | blockClosed block fn =>
    "cannot append to block #" ++ block.index.repr ++ " of " ++ inQuotes fn ++
      " after its terminator"
  | exitAsInstruction mnemonic => inQuotes mnemonic ++ " must be added as a block exit"
  | conditionNotBool cond fn =>
    "condition " ++ inQuotes cond ++ " of " ++ inQuotes fn ++ " is not a bool"
  | targetNotLabel target fn =>
    "branch target #" ++ target.index.repr ++ " of " ++ inQuotes fn ++ " is not a label"
  | unknownValue value fn => "unknown value #" ++ value.index.repr ++ " in " ++ inQuotes fn
  | notAnOperand value fn =>
    "value " ++ inQuotes value ++ " of " ++ inQuotes fn ++ " cannot be used as an operand"
  | notACompositePointer mnemonic fn value ty =>
    mnemonic ++ " in " ++ inQuotes fn ++ " expects a pointer to a composite, " ++ inQuotes value ++
      " is " ++ ty
  | notAUnion mnemonic typedef fn =>
    mnemonic ++ " on non-union " ++ inQuotes typedef ++ " in " ++ inQuotes fn
  | memberOfUnion typedef fn =>
    "objmemberat on union " ++ inQuotes typedef ++ " in " ++ inQuotes fn
  | memberOutOfRange index typedef count fn =>
    "member index " ++ index.repr ++ " out of range for " ++ inQuotes typedef ++ " (" ++
      count.repr ++ " members) in " ++ inQuotes fn
  | invalidAlloca count ty fn =>
    "invalid alloca of " ++ count.repr ++ " x " ++ ty ++ " in " ++ inQuotes fn
  | readOutsideMemory value fn =>
    "tried to read from " ++ inQuotes value ++ " in " ++ inQuotes fn ++ ", which is not in memory"
  | writeMismatch value valueTy memory memoryTy fn =>
    "cannot write " ++ inQuotes value ++ " of type " ++ valueTy ++ " into " ++ inQuotes memory ++
      " of type " ++ memoryTy ++ " in " ++ inQuotes fn
  | invalidDiscriminant value typedef fn =>
    "invalid discriminant " ++ inQuotes value ++ " for union " ++ inQuotes typedef ++ " in " ++
      inQuotes fn
  | convertMismatch value source target fn =>
    "cannot convert " ++ inQuotes value ++ " from " ++ source ++ " to " ++ target ++ " in " ++
      inQuotes fn
  | undeclaredCallee callee fn =>
    "call to undeclared function " ++ inQuotes callee ++ " in " ++ inQuotes fn
  | argumentCount callee expected passed fn =>
    inQuotes callee ++ " takes " ++ expected.repr ++ " arguments but " ++ passed.repr ++
      " were passed in " ++ inQuotes fn
  | argumentType value callee actual expected =>
    "argument " ++ inQuotes value ++ " of call to " ++ inQuotes callee ++ " has type " ++ actual ++
      ", expected " ++ expected
  | operandMismatch mnemonic fn left leftTy right rightTy =>
    "mismatched operands of " ++ mnemonic ++ " in " ++ inQuotes fn ++ ": " ++ inQuotes left ++
      " is " ++ leftTy ++ ", " ++ inQuotes right ++ " is " ++ rightTy
  | returnMismatch fn ty =>
    "return in " ++ inQuotes fn ++ " does not match its return type " ++ ty
  | unboundName name fn => inQuotes name ++ " is not bound while lowering " ++ inQuotes fn
  | noConversion source target fn =>
    "no conversion from " ++ source ++ " to " ++ target ++ " in " ++ inQuotes fn
  | noBuildableMember ty arguments =>
    "no member of " ++ inQuotes ty ++ " can be built from (" ++ ", ".intercalate arguments ++ ")"
  | notBuildable ty arguments =>
    inQuotes ty ++ " cannot be built from " ++ arguments.repr ++ " arguments"
  | constructorArity ty members arguments =>
    inQuotes ty ++ " has " ++ members.repr ++ " members, constructor got " ++ arguments.repr ++
      " arguments"
  | memberIndexRange index => "member index " ++ index.repr ++ " out of range"
  | unionMemberRange index => "union member " ++ index.repr ++ " out of range"
  | conversionArity target arguments =>
    "conversion to " ++ inQuotes target ++ " takes one argument, got " ++ arguments.repr
  | unknownParameter callee arguments position =>
    "call to " ++ inQuotes callee ++ " passes " ++ arguments.repr ++ " arguments, parameter " ++
      position.repr ++ " is unknown"
  | literalMissing literal => "literal #" ++ literal.index.repr ++ " was not interned"
  | scrutineeNotUnion fn ty =>
    "match scrutinee in " ++ inQuotes fn ++ " has non-union type " ++ inQuotes ty
  | missingArgument position fn =>
    "missing argument " ++ position.repr ++ " of " ++ inQuotes fn
  | returnStatement fn =>
    "return in " ++ inQuotes fn ++ " does not match the declared return type"
  | verification unit violations =>
    "lowered unit " ++ inQuotes unit ++ " failed verification: " ++ "; ".intercalate violations
  | reported text => text

end BlockForm
