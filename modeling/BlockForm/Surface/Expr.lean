import BlockForm.Constant
import BlockForm.Span
import BlockForm.Surface.Symbols
import BlockForm.Type.Key

/-!
# BlockForm.Surface.Expr — typed expressions

Every expression carries the type that analysis gave it and its place in the source.  A call stands for
three things: an explicit conversion, the construction of a user-defined type, or a call of a function.
-/

namespace BlockForm

/-- Binary operators. -/
inductive BinaryOperator where
  | add | subtract | multiply | divide
  | equal | notEqual | less | lessEqual | greater | greaterEqual
  | and | or
  deriving DecidableEq, Inhabited

namespace BinaryOperator

/-- Every binary operator. -/
def all : List BinaryOperator :=
  [add, subtract, multiply, divide, equal, notEqual, less, lessEqual, greater, greaterEqual, and, or]

/-- The operator in source text. -/
def symbol : BinaryOperator → String
  | add => "+"
  | subtract => "-"
  | multiply => "*"
  | divide => "/"
  | equal => "=="
  | notEqual => "!="
  | less => "<"
  | lessEqual => "<="
  | greater => ">"
  | greaterEqual => ">="
  | and => "and"
  | or => "or"

/-- The operator that is written so. -/
def ofSymbol? (s : String) : Option BinaryOperator := all.find? fun op => op.symbol == s

end BinaryOperator

mutual

/-- A typed expression. -/
inductive Expr where
  | constant (value : Constant) (ty : Ty) (span : Span)
  | text (content : String) (ty : Ty) (span : Span)
  | ident (name : String) (ty : Ty) (span : Span)
  | binary (op : BinaryOperator) (left right : Expr) (ty : Ty) (span : Span)
  /-- A call of `name`, whose own type is `callee`; `explicit` marks a conversion such as `u64(a)`. -/
  | call (name : String) (args : List Expr) (callee : Ty) (explicit : Bool) (ty : Ty) (span : Span)
  /-- The case of a sum that applies to the scrutinee. -/
  | choice (scrutinee : Expr) (cases : List MatchCase) (ty : Ty) (span : Span)

/-- One case of a match: the type it covers (none for the wildcard), the name given to the payload, the
body, and the scope that holds the name. -/
inductive MatchCase where
  | mk (pattern : Option Ty) (binding : Option String) (body : Expr) (symbols : SymbolTable)
    (span : Span)

end

instance : Inhabited Expr := ⟨.ident "" default default⟩

namespace MatchCase

/-- The type the case covers. -/
def pattern : MatchCase → Option Ty
  | mk p _ _ _ _ => p

/-- The name given to the payload. -/
def binding : MatchCase → Option String
  | mk _ b _ _ _ => b

/-- The value of the case. -/
def body : MatchCase → Expr
  | mk _ _ e _ _ => e

/-- The scope of the case. -/
def symbols : MatchCase → SymbolTable
  | mk _ _ _ t _ => t

/-- The place of the case. -/
def span : MatchCase → Span
  | mk _ _ _ _ s => s

/-- A case that binds no name. -/
def unbound (pattern : Option Ty) (body : Expr) (span : Span) : MatchCase :=
  mk pattern none body .empty span

/-- The case with its binding set and its scope left alone. -/
def withBinding (c : MatchCase) (name : String) : MatchCase :=
  mk c.pattern (some name) c.body c.symbols c.span

/-- The case with its payload bound to a name, which is declared in its scope. -/
def bind (c : MatchCase) (name : String) : Except DeclarationError MatchCase :=
  match c.pattern with
  | none => .error (.wildcardBinding name)
  | some ty => do
    let symbols ← c.symbols.declare name ty
    return mk c.pattern (some name) c.body symbols c.span

end MatchCase

namespace Expr

/-- The type of the expression. -/
def ty : Expr → Ty
  | constant _ t _ | text _ t _ | ident _ t _ | binary _ _ _ t _ | call _ _ _ _ t _
  | choice _ _ t _ => t

/-- The place of the expression. -/
def span : Expr → Span
  | constant _ _ s | text _ _ s | ident _ _ s | binary _ _ _ _ s | call _ _ _ _ _ s
  | choice _ _ _ s => s

/-- The expression with another type. -/
def withTy (t : Ty) : Expr → Expr
  | constant v _ s => constant v t s
  | text v _ s => text v t s
  | ident v _ s => ident v t s
  | binary op l r _ s => binary op l r t s
  | call n as c x _ s => call n as c x t s
  | choice e cs _ s => choice e cs t s

/-- A call with its mark of an explicit conversion set; other expressions are left alone. -/
def withExplicit (explicit : Bool) : Expr → Expr
  | call n as c _ t s => call n as c explicit t s
  | e => e

/-- Direct subexpressions in evaluation order. -/
def children : Expr → List Expr
  | constant _ _ _ | text _ _ _ | ident _ _ _ => []
  | binary _ l r _ _ => [l, r]
  | call _ as _ _ _ _ => as
  | choice e cs _ _ => e :: cs.map MatchCase.body

/-- A boolean constant. -/
def ofBool (value : Bool) (span : Span) : Expr := constant (.bool value) (.elementary .bool) span

/-- A string literal. -/
def ofText (content : String) (span : Span) : Expr := text content (.elementary .string) span

/-- A call of a function of type `callee`.  The call has the result type of a connective with two operands,
and no value otherwise. -/
def ofCall (name : String) (args : List Expr) (callee : Ty) (span : Span) : Expr :=
  let ty :=
    match callee.stripLeaf with
    | .operator _ [_, result] => result
    | _ => .nil
  call name args callee false ty span

/-- The construction of a value of type `ty`. -/
def ofConstruct (ty : Ty) (args : List Expr) (span : Span) : Expr :=
  call ty.key args ty false ty span

/-- The explicit conversion of a value. -/
def ofConversion (target : Elementary) (arg : Expr) (span : Span) : Expr :=
  let ty := Ty.elementary target
  call target.name [arg] (.operator .implication [arg.ty, ty]) true ty span

end Expr

/-- The type of parameter `index` of a function of type `callee`.  Several parameters are the operands of a
product; a single one is the first operand itself, unless that is `nil`. -/
def Ty.parameter? (callee : Ty) (index : Nat) : Option Ty :=
  match callee.stripLeaf with
  | .operator _ (params :: _) =>
    match params with
    | .operator .product tys => tys[index]?
    | single => if index = 0 ∧ single.isNil = false then some single else none
  | _ => none

end BlockForm
