import BlockForm.Surface.Expr

/-!
# BlockForm.Surface.Module — statements, functions and modules
-/

namespace BlockForm

mutual

/-- A statement. -/
inductive Statement where
  /-- Declares a variable, with its first value if there is one. -/
  | declare (name : String) (ty : Ty) (initial : Option Expr) (span : Span)
  /-- Gives a declared variable a new value. -/
  | assign (name : String) (value : Expr) (span : Span)
  /-- Leaves the function. -/
  | give (value : Option Expr) (span : Span)
  /-- Runs one of two bodies. -/
  | branch (condition : Expr) (whenTrue : Body) (whenFalse : Option Body) (span : Span)
  /-- Evaluates an expression for its effects. -/
  | effect (value : Expr)

/-- Statements with a scope of their own. -/
inductive Body where
  | mk (statements : List Statement) (symbols : SymbolTable) (span : Span)

end

namespace Statement

/-- The place of a statement. -/
def span : Statement → Span
  | declare _ _ _ s | assign _ _ s | give _ s | branch _ _ _ s => s
  | effect e => e.span

end Statement

namespace Body

/-- The statements in order. -/
def statements : Body → List Statement
  | mk ss _ _ => ss

/-- The names declared in the body. -/
def symbols : Body → SymbolTable
  | mk _ t _ => t

/-- The place of the body. -/
def span : Body → Span
  | mk _ _ s => s

/-- A body without recorded names. -/
def ofStatements (statements : List Statement) (span : Span) : Body := mk statements .empty span

end Body

/-- A parameter of a function. -/
structure Param where
  name : String
  ty : Ty
  span : Span

/-- What callers know of a function. -/
structure Signature where
  name : String
  params : List Param
  /-- Absent for functions that return nothing. -/
  returnType : Option Ty
  span : Span

namespace Signature

/-- The return type, `nil` standing for an absent one. -/
def result (s : Signature) : Ty := s.returnType.getD .nil

/-- The function type.  No parameter is `nil`, a single one is a named member, several are a product of
named members. -/
def ty (s : Signature) : Ty :=
  let params :=
    match s.params with
    | [] => .nil
    | [p] => .leaf p.name p.ty
    | ps => .operator .product (ps.map fun p => .leaf p.name p.ty)
  .operator .implication [params, s.result]

end Signature

/-- A function with a body. -/
structure FunctionItem where
  signature : Signature
  body : Body
  span : Span

/-- The function whose place covers its signature and its body. -/
def FunctionItem.of (signature : Signature) (body : Body) : FunctionItem :=
  ⟨signature, body, signature.span.merge body.span⟩

/-- A declared type. -/
structure TypeItem where
  name : String
  ty : Ty
  span : Span

/-- The declaration of a user-defined type with the given body. -/
def TypeItem.define (name : String) (body : Ty) (span : Span) : TypeItem :=
  ⟨name, .defined name body, span⟩

/-- A top-level item of a module. -/
inductive Item where
  /-- A function with a body. -/
  | function (f : FunctionItem)
  /-- A function defined elsewhere. -/
  | foreign (s : Signature)
  /-- A user-defined type. -/
  | type (t : TypeItem)

namespace Item

/-- The name the item declares. -/
def name : Item → String
  | function f => f.signature.name
  | foreign s => s.name
  | type t => t.name

/-- The type of the item: a function type or the declared type. -/
def ty : Item → Ty
  | function f => f.signature.ty
  | foreign s => s.ty
  | type t => t.ty

/-- The place of the item. -/
def span : Item → Span
  | function f => f.span
  | foreign s => s.span
  | type t => t.span

end Item

/-- An analyzed module. -/
structure Module where
  name : String
  items : List Item
  /-- Functions and user-defined types. -/
  symbols : SymbolTable

namespace Module

/-- The module without items. -/
def empty (name : String) : Module := ⟨name, [], .empty⟩

/-- Adds an item and declares its name. -/
def add (m : Module) (item : Item) : Except DeclarationError Module := do
  let symbols ← m.symbols.declare item.name item.ty
  return ⟨m.name, m.items ++ [item], symbols⟩

/-- Adds an item without declaring its name. -/
def addUndeclared (m : Module) (item : Item) : Module := { m with items := m.items ++ [item] }

end Module

end BlockForm
