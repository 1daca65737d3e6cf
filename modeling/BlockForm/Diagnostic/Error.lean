import BlockForm.Diagnostic.Fault
import BlockForm.Span

/-!
# BlockForm.Diagnostic.Error — errors of the pass

User errors have a place in the source and stop only the declaration they are in.  A fault is a bug of the
pass and stops the whole unit.
-/

namespace BlockForm

/-- What a user did wrong. -/
inductive UserMistake where
  /-- The type of a match case is no member of the matched sum. -/
  | notAMember (pattern sum : String)
  /-- A case that covers several members, or none, cannot name its payload. -/
  | bindingWithoutMember (name : String) (covered : Nat)
  /-- A mistake known by its wording alone. -/
  | reported (text : String)
  deriving DecidableEq

/-- The wording of a mistake. -/
def UserMistake.message : UserMistake → String
  | notAMember pattern sum =>
    "type " ++ inQuotes pattern ++ " is not a member of " ++ inQuotes sum
  | bindingWithoutMember name covered =>
    "cannot bind " ++ inQuotes name ++ " to a case covering " ++ covered.repr ++ " members"
  | reported text => text

/-- An error of the pass. -/
inductive Error where
  | io (text : String)
  | config (text : String)
  | user (mistake : UserMistake) (span : Span)
  | internal (fault : Fault)
  /-- The user errors of a module, in order. -/
  | failed (module : String) (errors : List Error)

namespace Error

mutual

/-- The error reports a bug of the pass, alone or among others. -/
def isInternal : Error → Bool
  | internal _ => true
  | failed _ errors => anyInternal errors
  | io _ | config _ | user _ _ => false

/-- Some error reports a bug of the pass. -/
def anyInternal : List Error → Bool
  | [] => false
  | e :: es => e.isInternal || anyInternal es

end

/-- The wording of an error. -/
def message : Error → String
  | io text => "IO error: " ++ text
  | config text => "Configuration error: " ++ text
  | user mistake _ => mistake.message
  | internal fault => "Internal compiler error: " ++ fault.message
  | failed module errors =>
    errors.length.repr ++ " error(s) while lowering module " ++ inQuotes module

/-- The class under which tools file the error. -/
def code? : Error → Option String
  | user _ _ | failed _ _ => some "tern::lowering"
  | internal _ => some "tern::internal"
  | io _ | config _ => none

/-- Advice to the reader of the error. -/
def help? : Error → Option String
  | internal _ => some "this is a bug in the compiler, not in the program being compiled"
  | _ => none

/-- The stretches of source the error points at: what to write there, the first byte and how many. -/
def labels : Error → List (String × Nat × Nat)
  | user _ span => [("here", span.start.offset, span.byteLength)]
  | _ => []

end Error

end BlockForm
