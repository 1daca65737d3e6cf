import BlockForm.Table
import BlockForm.Type.Basic

/-!
# BlockForm.Surface.Symbols — the names declared in one scope

A scope lists its own names only; enclosing scopes are the business of whoever walks them.
-/

namespace BlockForm

/-- Why a declaration of a surface program is refused. -/
inductive DeclarationError where
  /-- The scope has the name already. -/
  | duplicate (name : String)
  /-- A wildcard case has no single payload to name. -/
  | wildcardBinding (name : String)
  deriving DecidableEq

/-- The wording of a refused declaration. -/
def DeclarationError.message : DeclarationError → String
  | duplicate name => "Symbol '" ++ name ++ "' is already defined in this scope"
  | wildcardBinding name => "Cannot bind '" ++ name ++ "' in a wildcard case"

/-- A declared name: its type, and a slot for the code generator that lowering never looks at. -/
structure SymbolRecord where
  ty : Ty
  backendHandle : Option UInt64 := none

/-- The names of one scope, in declaration order. -/
abbrev SymbolTable := Table SymbolRecord

namespace SymbolTable

/-- Declares a name that the scope does not have yet. -/
def declare (t : SymbolTable) (name : String) (ty : Ty) : Except DeclarationError SymbolTable :=
  if t.contains name then .error (.duplicate name) else .ok (Table.insert t name ⟨ty, none⟩)

end SymbolTable

end BlockForm
