import BlockForm.Action
import BlockForm.Code.Unit

/-!
# BlockForm.Code.Verifier — structural rules of a unit

Over the placed blocks of a definition: every block has an exit; every target is the label of a placed block;
the last block is the end block and returns; every operand is a constant, a literal, an argument or the result
of an earlier instruction.  `violations` lists what breaks a rule, in layout order.
-/

namespace BlockForm

/-- A broken rule. -/
inductive Violation where
  | unterminated (function label : String)
  | foreignTarget (function label target : String)
  | misplacedEnd (function : String)
  | undefinedOperand (function operand : String)
  deriving DecidableEq

/-- The wording of a broken rule. -/
def Violation.message : Violation → String
  | unterminated fn label => "block " ++ label ++ " of " ++ inQuotes fn ++ " has no exit"
  | foreignTarget fn label target =>
    "block " ++ label ++ " of " ++ inQuotes fn ++ " branches to " ++ inQuotes target ++
      ", which is not one of its blocks"
  | misplacedEnd fn => inQuotes fn ++ " does not end with its end block followed by return"
  | undefinedOperand fn operand =>
    inQuotes fn ++ " uses " ++ inQuotes operand ++ " before it is defined in the function"

namespace Function

/-- A value in a violation: its identifier, or its position if there is no such value. -/
def valueText (f : Function) (v : ValueId) : String := (f.value? v).elim ("#" ++ v.index.repr) Value.id

/-- An operand can be read when the values in `defined` have been computed. -/
def isAvailable (f : Function) (defined : List ValueId) (v : ValueId) : Bool :=
  match (f.value? v).map Value.kind with
  | some (.constant _) | some (.literal _ _) | some (.argument _) => true
  | some (.result _) => defined.contains v
  | some (.label _) | some .nil | none => false

/-- The operands that cannot be read. -/
def undefinedOperands (f : Function) (defined operands : List ValueId) : List Violation :=
  (operands.filter fun v => !f.isAvailable defined v).map fun v =>
    .undefinedOperand f.name (f.valueText v)

/-- The values computed once the instructions have run. -/
def definedAfter (defined : List ValueId) (is : List Instruction) : List ValueId :=
  is.foldl (fun ds i => i.value :: ds) defined

/-- The operands of instructions in a row that cannot be read. -/
def undefinedInRow (f : Function) : (defined : List ValueId) → List Instruction → List Violation
  | _, [] => []
  | defined, i :: is =>
    f.undefinedOperands defined i.operation.operands ++ f.undefinedInRow (i.value :: defined) is

/-- The instructions of a block, the return that ends it included. -/
def instructionsWithReturn (f : Function) (b : Block) : List Instruction :=
  f.instructionsOf b ++
    match b.exit with
    | some (.give id) => (f.instruction? id).toList
    | _ => []

/-- The rules an exit breaks, given the labels of the placed blocks. -/
def exitViolations (f : Function) (placed : List ValueId) (b : Block) : List Violation :=
  match b.exit with
  | none => [.unterminated f.name (f.valueText b.label)]
  | some exit =>
    (exit.targets.filter fun t => !placed.contains t).map fun t =>
      .foreignTarget f.name (f.valueText b.label) (f.valueText t)

/-- The rules that blocks break, given the labels of the placed blocks and the values computed before. -/
def blockViolations (f : Function) (placed : List ValueId) :
    (defined : List ValueId) → List Block → List Violation
  | _, [] => []
  | defined, b :: bs =>
    let row := f.instructionsWithReturn b
    let after := definedAfter defined row
    f.undefinedInRow defined row ++
      f.undefinedOperands after (b.exit.elim [] Exit.conditions) ++
      f.exitViolations placed b ++ f.blockViolations placed after bs

/-- The last placed block is the end block and returns. -/
def endsWithReturn (f : Function) : Bool :=
  match f.placedBlocks.getLast?, f.endLabel with
  | some b, some label =>
    b.label == label &&
      match b.exit with
      | some (.give _) => true
      | _ => false
  | _, _ => false

/-- The rules a definition breaks. -/
def violations (f : Function) : List Violation :=
  f.blockViolations (f.placedBlocks.map Block.label) [] f.placedBlocks ++
    if f.endsWithReturn then [] else [.misplacedEnd f.name]

end Function

namespace CompilationUnit

/-- The rules the definitions of a unit break. -/
def violations (u : CompilationUnit) : List Violation :=
  (u.functions.values.filter fun f => !f.isDeclaration).flatMap Function.violations

/-- The broken rules, their number being reported if there are any. -/
def verify : Action CompilationUnit (List Violation) := do
  let u ← Action.get
  let found := u.violations
  if !found.isEmpty then Action.report (.violationsFound u.name found.length)
  return found

end CompilationUnit

end BlockForm
