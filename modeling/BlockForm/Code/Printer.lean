import BlockForm.Code.Unit

/-!
# BlockForm.Code.Printer — the textual form of a unit

Every typedef, literal and instruction has one line.  Typedefs come first, then literals, then functions in
declaration order, each function after an empty line.
-/

namespace BlockForm

namespace CompilationUnit

/-- A member of a typedef: its name, if it has one, and its type. -/
def memberText (u : CompilationUnit) (m : TypeMember) : String :=
  match m.name with
  | some name => name ++ ":" ++ u.typeText m.ty
  | none => u.typeText m.ty

/-- The keyword of a layout. -/
def layoutKeyword (isUnion : Bool) : String := if isUnion then "uniondef" else "typedef"

/-- The line of a typedef. -/
def typedefLine (u : CompilationUnit) (t : TypeDef) : String :=
  "$" ++ t.name ++ " = " ++ layoutKeyword t.isUnion ++ "(" ++
    ", ".intercalate (t.members.map u.memberText) ++ ")"

/-- The line of a literal. -/
def globalLine (u : CompilationUnit) (g : Global) : String :=
  "global(" ++ g.name ++ ", " ++ u.typeText g.ty ++ ", " ++ Text.quoted g.content ++ ")"

end CompilationUnit

namespace Function

/-- What stands between the parentheses of an operation. -/
def operationArguments (f : Function) (u : CompilationUnit) : Operation → List String
  | .alloca ty count => [u.typeText ty, count.repr]
  | .objMemberAt object index => [f.idText object, index.repr]
  | .unionMemberAt target index => [f.idText target, index.repr]
  | .convert value target => [f.idText value, u.typeText target]
  | .call name args => name :: args.map f.idText
  | operation => operation.operands.map f.idText

/-- An instruction, with its result in front if it has one. -/
def instructionText (f : Function) (u : CompilationUnit) (i : Instruction) : String :=
  let body :=
    i.operation.mnemonic ++ "(" ++ ", ".intercalate (f.operationArguments u i.operation) ++ ")"
  if i.value = nilValue then body else f.idText i.value ++ " = " ++ body

/-- The exit of a block. -/
def exitText (f : Function) (u : CompilationUnit) : Exit → String
  | .branch target => "branch(" ++ f.idText target ++ ")"
  | .condBranch condition taken otherwise =>
    "condbranch(" ++ ", ".intercalate [f.idText condition, f.idText taken, f.idText otherwise] ++ ")"
  | .give id => (f.instruction? id).elim "return(?)" (f.instructionText u)
  | .unreachable => "unreachable()"

/-- The lines of a block. -/
def blockLines (f : Function) (u : CompilationUnit) (b : Block) : List String :=
  (f.idText b.label ++ ":") ::
    ((f.instructionsOf b).map (f.instructionText u) ++ b.exit.toList.map (f.exitText u)).map
      ("    " ++ ·)

/-- The arguments of a definition with their identifiers, from a position on. -/
def argumentTexts (f : Function) (u : CompilationUnit) : (position : Nat) → List LoweredType → List String
  | _, [] => []
  | position, ty :: tys =>
    ((f.argumentValue? position).elim "?" f.idText ++ ":" ++ u.typeText ty) ::
      f.argumentTexts u (position + 1) tys

/-- The line that names a function, its arguments and its result. -/
def signatureText (f : Function) (u : CompilationUnit) : String :=
  let (keyword, args) :=
    if f.isDeclaration then ("fndecl", f.arguments.map u.typeText)
    else ("fndef", f.argumentTexts u 0 f.arguments)
  keyword ++ " " ++ f.name ++ "(" ++ ", ".intercalate args ++ ") -> " ++ u.typeText f.returnType

/-- The lines of a function. -/
def lines (f : Function) (u : CompilationUnit) : List String :=
  f.signatureText u ::
    if f.isDeclaration then []
    else ["\x7b"] ++ f.placedBlocks.flatMap (f.blockLines u) ++ ["\x7d"]

end Function

/-- The lines, each ended. -/
def endedLines (lines : List String) : String := String.join (lines.map (· ++ "\n"))

namespace CompilationUnit

/-- The text of a function. -/
def functionText (u : CompilationUnit) (f : Function) : String := endedLines (f.lines u)

/-- The lines before the functions. -/
def headLines (u : CompilationUnit) : List String :=
  u.typedefs.values.map u.typedefLine ++ u.globals.values.map u.globalLine

/-- Functions, each but perhaps the first after an empty line. -/
def functionsLines (u : CompilationUnit) : (separate : Bool) → List Function → List String
  | _, [] => []
  | separate, f :: fs =>
    (if separate then [""] else []) ++ f.lines u ++ u.functionsLines true fs

/-- The text of a unit. -/
def text (u : CompilationUnit) : String :=
  endedLines (u.headLines ++ u.functionsLines (!u.headLines.isEmpty) u.functions.values)

end CompilationUnit

end BlockForm
