import BlockForm.Table

/-!
# BlockForm.Code.Handle — references between the objects of a unit

Values, instructions and blocks live in tables of their function; typedefs, globals and functions in tables of
their unit.  An object refers to another by its position in such a table, and the kind of the handle says
which table is meant.
-/

namespace BlockForm

/-- The tables a handle can point into. -/
inductive HandleKind where
  | value | instruction | block | typedef | global | function
  deriving DecidableEq

/-- A position in the table of the given kind. -/
structure Handle (kind : HandleKind) where
  index : Nat
  deriving DecidableEq, Inhabited

abbrev ValueId := Handle .value
abbrev InstructionId := Handle .instruction
abbrev BlockId := Handle .block
abbrev TypeDefId := Handle .typedef
abbrev GlobalId := Handle .global
abbrev FunctionId := Handle .function

/-- Every table holds fewer objects than this. -/
def Handle.limit : Nat := 4294967296

/-- What a name stands for. -/
inductive Object where
  | instruction (id : InstructionId)
  | block (id : BlockId)
  /-- A function argument by position. -/
  | argument (position : Nat)
  | global (id : GlobalId)
  | typedef (id : TypeDefId)
  | function (id : FunctionId)
  deriving DecidableEq

/-- The object in messages and listings. -/
def Object.text : Object → String
  | instruction id => "expression #" ++ id.index.repr
  | block id => "block #" ++ id.index.repr
  | argument n => "argument #" ++ n.repr
  | global id => "global #" ++ id.index.repr
  | typedef id => "typedef #" ++ id.index.repr
  | function id => "function #" ++ id.index.repr

/-- The names of one scope and what they stand for. -/
abbrev NameTable := Table Object

end BlockForm
