import BlockForm.Diagnostic.Fault
import BlockForm.Text.Quoted

/-!
# BlockForm.Diagnostic.Event — what the pass reports while it runs
-/

namespace BlockForm

/-- How much an event matters. -/
inductive Level where
  | error | debug | trace
  deriving DecidableEq

/-- The name of a level. -/
def Level.label : Level → String
  | error => "ERROR"
  | debug => "DEBUG"
  | trace => "TRACE"

/-- A report of the pass. -/
inductive Event where
  | fault (fault : Fault)
  | nameClash (name : String) (existing rejected : Object)
  | moduleStarted (module : String) (items : Nat)
  | moduleFinished (module : String) (functions typedefs literals : Nat)
  | functionStarted (function : String)
  | functionFinished (function : String) (blocks values : Nat)
  | typedefCreated (unit : String) (isUnion : Bool) (typedef key : String)
  | literalInterned (unit name content : String)
  | instructionAdded (function mnemonic value : String)
  | statementsSkipped (function : String) (count : Nat)
  | violationsFound (unit : String) (count : Nat)
  deriving DecidableEq

namespace Event

/-- The level of an event. -/
def level : Event → Level
  | fault _ | nameClash _ _ _ => .error
  | moduleStarted _ _ | moduleFinished _ _ _ _ | functionStarted _ | functionFinished _ _ _
  | statementsSkipped _ _ | violationsFound _ _ => .debug
  | typedefCreated _ _ _ _ | literalInterned _ _ _ | instructionAdded _ _ _ => .trace

/-- The wording of an event. -/
def message : Event → String
  | fault f => f.message
  | nameClash name existing rejected =>
    "identifier " ++ inQuotes name ++ " already names " ++ existing.text ++
      ", cannot bind it to " ++ rejected.text
  | moduleStarted module items =>
    "lowering module " ++ inQuotes module ++ " (" ++ items.repr ++ " items)"
  | moduleFinished module functions typedefs literals =>
    "lowered module " ++ inQuotes module ++ ": " ++ functions.repr ++ " functions, " ++
      typedefs.repr ++ " typedefs, " ++ literals.repr ++ " literals"
  | functionStarted fn => "lowering function " ++ inQuotes fn
  | functionFinished fn blocks values =>
    "lowered function " ++ inQuotes fn ++ ": " ++ blocks.repr ++ " blocks, " ++ values.repr ++
      " values"
  | typedefCreated unit isUnion typedef key =>
    unit ++ ": created " ++ (if isUnion then "uniondef" else "typedef") ++ " $" ++ typedef ++
      " for " ++ inQuotes key
  | literalInterned unit name content =>
    unit ++ ": interned literal " ++ name ++ " = " ++ Text.quoted content
  | instructionAdded fn mnemonic value => fn ++ ": " ++ mnemonic ++ " -> " ++ value
  | statementsSkipped fn count =>
    fn ++ ": skipping " ++ count.repr ++ " unreachable statement(s) after return"
  | violationsFound unit count => unit ++ ": " ++ count.repr ++ " verification error(s)"

/-- One line of the log. -/
def line (e : Event) : String := e.level.label ++ " " ++ e.message

end Event

end BlockForm
