import BlockForm.Code.LoweredType
import BlockForm.Constant
import BlockForm.Text.Quoted

/-!
# BlockForm.Code.Value — the values of a function

A value is made once and never changed.  Constants and literals are written by their content, arguments and
results of instructions as `$n`, labels of blocks as `%label_n`.
-/

namespace BlockForm

/-- What a value is. -/
inductive ValueKind where
  | constant (c : Constant)
  /-- An argument of the function, by position. -/
  | argument (position : Nat)
  /-- The result of an instruction. -/
  | result (instruction : InstructionId)
  /-- The name of a block. -/
  | label (block : BlockId)
  /-- A string of the unit. -/
  | literal (global : GlobalId) (content : String)
  /-- The absence of a value. -/
  | nil
  deriving DecidableEq

/-- A value: labels and the absent value have no type, and only the absent value has no identifier. -/
structure Value where
  kind : ValueKind
  ty : Option LoweredType
  id : String
  deriving DecidableEq

namespace Value

/-- The absent value. -/
def nil : Value := ⟨.nil, none, ""⟩

/-- The constant, for a constant. -/
def constant? (v : Value) : Option Constant :=
  match v.kind with
  | .constant c => some c
  | _ => none

/-- The block, for a label. -/
def label? (v : Value) : Option BlockId :=
  match v.kind with
  | .label b => some b
  | _ => none

/-- The position, for an argument. -/
def argument? (v : Value) : Option Nat :=
  match v.kind with
  | .argument p => some p
  | _ => none

/-- The content of a constant or literal, the identifier of any other value. -/
def content (v : Value) : String :=
  match v.kind with
  | .constant c => c.text
  | .literal _ content => Text.quoted content
  | _ => v.id

end Value

end BlockForm
