import BlockForm.Code.Function
import BlockForm.Text.Fingerprint

/-!
# BlockForm.Code.Unit — compilation units

A unit owns the functions, typedefs and string literals of one module.  Its tables keep insertion order, and a
common name table makes the names of all three distinct.
-/

namespace BlockForm

/-- One member of a typedef. -/
structure TypeMember where
  /-- Present if the surface type names the member. -/
  name : Option String
  ty : LoweredType
  deriving DecidableEq

/-- A layout: a product of members, or a union of which one member is present. -/
structure TypeDef where
  name : String
  isUnion : Bool
  members : List TypeMember
  deriving DecidableEq

/-- A string literal. -/
structure Global where
  name : String
  ty : LoweredType
  content : String
  deriving DecidableEq

/-- The name of the literal with the given content. -/
def literalName (stem content : String) : String :=
  stem ++ "_" ++ (Text.fingerprint content).toNat.repr

/-- Choices of the user. -/
structure Options where
  /-- What the names of literals start with. -/
  literalStem : String := "gstr"
  /-- Whether a finished unit is verified. -/
  verify : Bool := true
  deriving DecidableEq, Inhabited

/-- One lowered module. -/
structure CompilationUnit where
  name : String
  options : Options
  /-- By name. -/
  functions : Table Function
  /-- By the key of their surface type. -/
  typedefs : Table TypeDef
  /-- By content. -/
  globals : Table Global
  /-- The names of functions, typedefs and globals. -/
  names : NameTable

namespace CompilationUnit

/-- The unit without objects. -/
def empty (name : String) (options : Options) : CompilationUnit :=
  ⟨name, options, .empty, .empty, .empty, .empty⟩

/-- The function with a name. -/
def function? (u : CompilationUnit) (name : String) : Option Function := u.functions.get? name

/-- The function of a handle. -/
def functionAt? (u : CompilationUnit) (id : FunctionId) : Option Function := u.functions.at? id.index

/-- The typedef of a handle. -/
def typedefAt? (u : CompilationUnit) (id : TypeDefId) : Option TypeDef := u.typedefs.at? id.index

/-- The typedef with a name. -/
def typedef? (u : CompilationUnit) (name : String) : Option TypeDef :=
  match u.names.get? name with
  | some (.typedef id) => u.typedefAt? id
  | _ => none

/-- The typedef made for the surface type with the given key. -/
def typedefForKey? (u : CompilationUnit) (key : String) : Option TypeDefId :=
  match u.typedefs.indexOf? key with
  | some i => if i < Handle.limit then some ⟨i⟩ else none
  | none => none

/-- The literal with the given content. -/
def global? (u : CompilationUnit) (content : String) : Option Global := u.globals.get? content

/-- The literal of a handle. -/
def globalAt? (u : CompilationUnit) (id : GlobalId) : Option Global := u.globals.at? id.index

/-- The text of a lowered type. -/
def typeText (u : CompilationUnit) (ty : LoweredType) : String :=
  let base :=
    match ty.kind with
    | .elementary e => e.name
    | .composite id =>
      match u.typedefAt? id with
      | some t => "$" ++ t.name
      | none => "$<typedef #" ++ id.index.repr ++ ">"
  if ty.isPointer then base ++ "*" else base

/-- Size in bytes of an address and of a discriminant. -/
def wordSize : UInt64 := 8

/-- The size of a value with at most `depth` typedefs nested in one another. -/
def byteSizeWithin (u : CompilationUnit) (depth : Nat) (ty : LoweredType) : UInt64 :=
  if ty.isPointer then wordSize
  else
    match ty.kind, depth with
    | .elementary e, _ => UInt64.ofNat e.byteSize
    | .composite _, 0 => 0
    | .composite id, depth + 1 =>
      match u.typedefAt? id with
      | none => 0
      | some t =>
        let sizes := t.members.map fun m => u.byteSizeWithin depth m.ty
        if t.isUnion then sizes.foldl max 0 + wordSize else sizes.foldl (· + ·) 0

/-- Size in bytes of a value: the sum of the members of a product, the largest member and a discriminant for
a union.  Typedefs nest at most as deep as the unit has typedefs. -/
def byteSize (u : CompilationUnit) (ty : LoweredType) : UInt64 :=
  u.byteSizeWithin u.typedefs.size ty

end CompilationUnit

end BlockForm
