import BlockForm.Code.Builder

/-!
# BlockForm.Code.Interning — adding functions, typedefs and literals to a unit
-/

namespace BlockForm

namespace CompilationUnit

/-- A step that changes a unit. -/
abbrev Interning := Action CompilationUnit

/-- Binds a free name of the unit to an object. -/
def bindName (name : String) (object : Object) : Interning Unit := fun u =>
  let o := NameTable.bind name object u.names
  ⟨o.result, { u with names := o.state }, o.log⟩

/-- Adds a function, in the place of an earlier one of the same name if there is one. -/
def addFunction (f : Function) : Interning FunctionId := do
  let u ← Action.get
  match u.functions.indexOf? f.name with
  | some i =>
    Action.set { u with functions := u.functions.insert f.name f }
    Action.handle .function i
  | none =>
    let id ← Action.handle .function u.functions.size
    bindName f.name (.function id)
    Action.modify fun u => { u with functions := u.functions.insert f.name f }
    return id

/-- Adds a typedef under the key of its surface type. -/
def addTypeDef (key : String) (t : TypeDef) : Interning TypeDefId := do
  let u ← Action.get
  if u.typedefs.contains key then Action.fault (.typedefTwice key)
  else
    let id ← Action.handle .typedef u.typedefs.size
    bindName t.name (.typedef id)
    Action.report (.typedefCreated u.name t.isUnion t.name key)
    Action.modify fun u => { u with typedefs := u.typedefs.insert key t }
    return id

/-- The literal with the given content, made on first use. -/
def internLiteral (content : String) : Interning GlobalId := do
  let u ← Action.get
  match u.globals.indexOf? content with
  | some i => Action.handle .global i
  | none =>
    let id ← Action.handle .global u.globals.size
    let name := literalName u.options.literalStem content
    bindName name (.global id)
    Action.report (.literalInterned u.name name content)
    Action.modify fun u =>
      { u with globals := u.globals.insert content ⟨name, .elementary .string, content⟩ }
    return id

end CompilationUnit

end BlockForm
