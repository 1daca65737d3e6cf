import BlockForm.Lowering.Expr
import BlockForm.Proofs.Machine
import BlockForm.Surface.Module

/-!
# BlockForm.Proofs.Evaluation — evaluating scalar programs on their syntax trees

Statements run in order, a return ends the function at once, operands and arguments are evaluated from left to right
and both operands of every operator are.  An operand is converted to the type that its place asks for: that of the
variable, of the parameter, of the result, of the arithmetic, or the common type of a comparison.  `isScalar` marks
the programs this covers.
-/

namespace BlockForm

variable {V : Type}

/-! ## Values -/

/-- The value of an expression, with the constant it is if that is plain from the text. -/
structure Operand (V : Type) where
  ty : Elementary
  value : V
  constant : Option Constant

namespace Operand

/-- The operand as one of the given type. -/
def coerce (I : Interpretation V) (o : Operand V) (target : Elementary) : Operand V :=
  if o.ty = target then o
  else ⟨target, I.convert o.ty target o.value, o.constant.bind fun c => c.retyped? target⟩

/-- A constant has the type that analysis gave it if it fits, else its default type. -/
def ofConstant (I : Interpretation V) (c : Constant) (ty : Ty) : Operand V :=
  match ty.elementary?.bind fun e => (c.retyped? e).map (·, e) with
  | some (typed, e) => ⟨e, I.constant typed e, some typed⟩
  | none => ⟨c.defaultType, I.constant c c.defaultType, some c⟩

/-- The common type of two compared operands: a constant that fits the other side takes its type, the right one first,
and otherwise the wider type is taken, the left one on a tie. -/
def comparisonType (left right : Operand V) : Elementary :=
  if (right.constant.bind fun c => c.retyped? left.ty).isSome then left.ty
  else if (left.constant.bind fun c => c.retyped? right.ty).isSome then right.ty
  else if left.ty.width?.getD 0 < right.ty.width?.getD 0 then right.ty
  else left.ty

/-- The result of a binary operator, the type of arithmetic being given. -/
def combine (I : Interpretation V) (op : BinaryOperator) (ty : Ty) (left right : Operand V) : Option (Operand V) :=
  match op.class with
  | .arith op => do
    let e ← ty.elementary?
    return ⟨e, I.arith op e (left.coerce I e).value (right.coerce I e).value, none⟩
  | .cmp op =>
    let e := left.comparisonType right
    some ⟨.bool, I.cmp op e (left.coerce I e).value (right.coerce I e).value, none⟩
  | .logic op => some ⟨.bool, I.logic op (left.coerce I .bool).value (right.coerce I .bool).value, none⟩

end Operand

/-- The variables in scope with their types and values, the latest first. -/
abbrev Environment (V : Type) := List (String × Elementary × V)

/-- Gives the latest variable of a name a new value. -/
def Environment.assign (name : String) (v : V) : Environment V → Environment V
  | [] => []
  | (n, ty, w) :: env => if name == n then (n, ty, v) :: env else (n, ty, w) :: assign name v env

/-! ## Evaluation -/

/-- What statements come to. -/
inductive Flow (V : Type) where
  | next (env : Environment V)
  | returned (value : Option V)

/-- What the body of a function is evaluated with. -/
structure Evaluator (V : Type) where
  meaning : Interpretation V
  /-- The parameter types and the result type of a function, `nil` for no result. -/
  callee? : String → Option (List Elementary × Elementary)
  /-- The result type of the function itself. -/
  result : Elementary

namespace Evaluator

variable (E : Evaluator V)

mutual

/-- The value of an expression, absent for a call without a result, with the calls after it. -/
def evaluate (env : Environment V) : Expr → List (Call V) → Option (Option (Operand V) × List (Call V))
  | .constant c ty _, calls => some (some (.ofConstant E.meaning c ty), calls)
  | .ident name _ _, calls => do
    let (ty, v) ← env.lookup name
    return (some ⟨ty, v, none⟩, calls)
  | .binary op left right ty _, calls => do
    let (l, calls) ← evaluate env left calls
    let (r, calls) ← evaluate env right calls
    let o ← Operand.combine E.meaning op ty (← l) (← r)
    return (some o, calls)
  | .call _ [arg] _ true ty _, calls => do
    let (o, calls) ← evaluate env arg calls
    let e ← ty.elementary?
    return (some ((← o).coerce E.meaning e), calls)
  | .call name args _ false _ _, calls => do
    let (tys, result) ← E.callee? name
    let (vs, calls) ← evaluateAll env tys args calls
    let answer := E.meaning.answer calls.length name vs
    return (if result = .nil then none else some ⟨result, answer, none⟩, calls ++ [⟨name, vs⟩])
  | .call _ _ _ true _ _, _ | .text _ _ _, _ | .choice _ _ _ _, _ => none

/-- The values of arguments as ones of the given types. -/
def evaluateAll (env : Environment V) :
    List Elementary → List Expr → List (Call V) → Option (List V × List (Call V))
  | [], [], calls => some ([], calls)
  | ty :: tys, arg :: args, calls => do
    let (o, calls) ← evaluate env arg calls
    let v := ((← o).coerce E.meaning ty).value
    let (vs, calls) ← evaluateAll env tys args calls
    return (v :: vs, calls)
  | _, _, _ => none

end

/-- The value of an expression as one of the given type. -/
def evaluateAs (env : Environment V) (ty : Elementary) (e : Expr) (calls : List (Call V)) :
    Option (V × List (Call V)) := do
  let (o, calls) ← E.evaluate env e calls
  return (((← o).coerce E.meaning ty).value, calls)

mutual

/-- Runs a statement. -/
def execute : Statement → Environment V → List (Call V) → Option (Flow V × List (Call V))
  | .declare name ty (some e) _, env, calls => do
    let t ← ty.elementary?
    let (v, calls) ← E.evaluateAs env t e calls
    return (.next ((name, t, v) :: env), calls)
  | .declare _ _ none _, _, _ => none
  | .assign name e _, env, calls => do
    let (t, _) ← env.lookup name
    let (v, calls) ← E.evaluateAs env t e calls
    return (.next (env.assign name v), calls)
  | .give none _, _, calls => if E.result = .nil then some (.returned none, calls) else none
  | .give (some e) _, env, calls => do
    if E.result = .nil then none
    else
      let (v, calls) ← E.evaluateAs env E.result e calls
      return (.returned (some v), calls)
  | .branch condition whenTrue (some whenFalse) _, env, calls => do
    let (v, calls) ← E.evaluateAs env .bool condition calls
    if E.meaning.holds v then executeBody whenTrue env calls else executeBody whenFalse env calls
  | .branch condition whenTrue none _, env, calls => do
    let (v, calls) ← E.evaluateAs env .bool condition calls
    if E.meaning.holds v then executeBody whenTrue env calls else return (.next env, calls)
  | .effect e, env, calls => do
    let (_, calls) ← E.evaluate env e calls
    return (.next env, calls)

/-- Runs the statements of a body, whose variables are forgotten after it. -/
def executeBody : Body → Environment V → List (Call V) → Option (Flow V × List (Call V))
  | ⟨statements, _, _⟩, env, calls => do
    match ← executeAll statements env calls with
    | (.next env', calls) => return (.next (env'.drop (env'.length - env.length)), calls)
    | (.returned v, calls) => return (.returned v, calls)

/-- Runs statements up to the first return. -/
def executeAll : List Statement → Environment V → List (Call V) → Option (Flow V × List (Call V))
  | [], env, calls => some (.next env, calls)
  | statement :: rest, env, calls => do
    match ← execute statement env calls with
    | (.next env, calls) => executeAll rest env calls
    | (.returned v, calls) => return (.returned v, calls)

end

/-- What a function returns whose body has come to this.  Without a return, it is what its fresh return slot holds. -/
def returned : Flow V → Option V
  | .returned v => v
  | .next _ => if E.result = .nil then none else some (E.meaning.blank E.result)

end Evaluator

/-- The parameters as variables, with their values. -/
def bindParams : List Param → List V → Environment V → Option (Environment V)
  | [], [], env => some env
  | p :: params, v :: args, env => do
    let e ← p.ty.elementary?
    bindParams params args ((p.name, e, v) :: env)
  | _, _, _ => none

/-! ## Modules -/

/-- The elementary types of the parameters and of the result. -/
def Signature.elementary? (s : Signature) : Option (List Elementary × Elementary) := do
  let tys ← s.params.mapM fun p => p.ty.elementary?
  let result ← s.result.elementary?
  return (tys, result)

/-- The signature that an item declares. -/
def Item.signature? : Item → Option Signature
  | function f => some f.signature
  | foreign s => some s
  | type _ => none

/-- The signatures of the functions of a module, defined or foreign. -/
def Module.signatures (m : Module) : List Signature := m.items.filterMap Item.signature?

/-- The types of the function with the given name. -/
def Module.callee? (m : Module) (name : String) : Option (List Elementary × Elementary) :=
  (m.signatures.find? fun s => s.name == name).bind Signature.elementary?

/-- The returned value of a function of the module and the calls it makes. -/
def Module.evaluate (m : Module) (I : Interpretation V) (item : FunctionItem) (args : List V) :
    Option (Option V × List (Call V)) := do
  let result ← item.signature.result.elementary?
  let env ← bindParams item.signature.params args []
  let E : Evaluator V := ⟨I, m.callee?, result⟩
  let (flow, calls) ← E.executeBody item.body env []
  return (E.returned flow, calls)

/-! ## Scalar programs -/

/-- The constant is an integer or a truth value. -/
def Constant.isDiscrete : Constant → Bool
  | int _ | bool _ => true
  | float _ => false

mutual

/-- The expression is made from constants, names, operators, explicit conversions and calls on integers and truth
values. -/
def Expr.isScalar : Expr → Bool
  | .constant c ty _ => c.isDiscrete && ty.elementary?.all Elementary.isDiscrete
  | .ident _ _ _ => true
  | .binary op left right ty _ =>
    left.isScalar && right.isScalar &&
      match op.class with
      | .arith _ => ty.elementary?.any Elementary.isDiscrete
      | .cmp _ | .logic _ => true
  | .call _ [arg] _ true ty _ => arg.isScalar && ty.elementary?.any Elementary.isDiscrete
  | .call _ args callee false _ _ => !callee.isDefined && Expr.areScalar args
  | .call _ _ _ true _ _ | .text _ _ _ | .choice _ _ _ _ => false

/-- All of the expressions are scalar. -/
def Expr.areScalar : List Expr → Bool
  | [] => true
  | e :: es => e.isScalar && Expr.areScalar es

end

mutual

/-- The statement declares variables with their first values, assigns, returns, branches or evaluates, on integers and
truth values. -/
def Statement.isScalar : Statement → Bool
  | .declare _ ty (some e) _ => ty.elementary?.any Elementary.isDiscrete && e.isScalar
  | .declare _ _ none _ => false
  | .assign _ e _ | .effect e => e.isScalar
  | .give none _ => true
  | .give (some e) _ => e.isScalar
  | .branch condition whenTrue (some whenFalse) _ => condition.isScalar && whenTrue.isScalar && whenFalse.isScalar
  | .branch condition whenTrue none _ => condition.isScalar && whenTrue.isScalar

/-- The statements of the body are scalar. -/
def Body.isScalar : Body → Bool
  | ⟨statements, _, _⟩ => Statement.areScalar statements

/-- All of the statements are scalar. -/
def Statement.areScalar : List Statement → Bool
  | [] => true
  | statement :: rest => statement.isScalar && Statement.areScalar rest

end

/-- Parameters are integers or truth values, and so is the result if there is one. -/
def Signature.isScalar (s : Signature) : Bool :=
  s.params.all (fun p => p.ty.elementary?.any Elementary.isDiscrete) &&
    s.result.elementary?.any fun e => e == .nil || e.isDiscrete

/-- All functions of the module are scalar. -/
def Module.isScalar (m : Module) : Bool :=
  m.signatures.all Signature.isScalar &&
    m.items.all fun
      | .function f => f.body.isScalar
      | .foreign _ | .type _ => true

end BlockForm
