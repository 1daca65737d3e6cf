import BlockForm.Diagnostic.Fault
import BlockForm.Text.Blank
import BlockForm.Text.Cut

/-!
# BlockForm.Code.TypedefLine — reading the lines of typedefs

A line is `$name = typedef(member, member)` or `$name = uniondef(...)`, a member `name:type` or a bare type.
White space is ignored around the line and around members.
-/

namespace BlockForm

/-- Why a line is no typedef. -/
inductive TypedefLineError where
  | missingName (line : String)
  | unknownKind (kind : String)
  | unbalanced (line : String)
  | emptyMember (line : String)
  deriving DecidableEq

/-- The wording of a rejected line. -/
def TypedefLineError.message : TypedefLineError → String
  | missingName line => "expected '$<name> = ...', got " ++ inQuotes line
  | unknownKind kind =>
    "unknown definition kind " ++ inQuotes kind ++ ", expected 'typedef' or 'uniondef'"
  | unbalanced line => "unbalanced parentheses in " ++ inQuotes line
  | emptyMember line => "empty member in " ++ inQuotes line

/-- The parts of a typedef line. -/
structure TypedefLine where
  name : String
  isUnion : Bool
  /-- Names, where there are any, and texts of types. -/
  members : List (Option String × String)
  deriving DecidableEq

namespace TypedefLine

open Text

/-- The name and the rest of `$name = rest`. -/
def cutName? (line : List Char) : Option (List Char × List Char) :=
  match line with
  | '$' :: rest =>
    match cutAtText " = ".toList rest with
    | some (name, definition) => if name.isEmpty then none else some (name, definition)
    | none => none
  | _ => none

/-- Whether a keyword stands for a union. -/
def isUnionKeyword? (keyword : List Char) : Option Bool :=
  if keyword = "typedef".toList then some false
  else if keyword = "uniondef".toList then some true
  else none

/-- What stands before the last parenthesis, if that is the only one. -/
def cutBody? (rest : List Char) : Option (List Char) :=
  match dropLast? ')' rest with
  | some body => if body.any fun c => c == '(' || c == ')' then none else some body
  | none => none

/-- A member, unless its type or its name is empty. -/
def member? (text : List Char) : Option (Option String × String) :=
  match cutAt ':' text with
  | some (name, ty) =>
    if name.isEmpty || ty.isEmpty then none else some (some (String.ofList name), String.ofList ty)
  | none => if text.isEmpty then none else some (none, String.ofList text)

/-- The members of a body, unless one is empty; a blank body has none. -/
def members? (body : List Char) : Option (List (Option String × String)) :=
  if (trim body).isEmpty then some [] else (pieces ',' body).mapM fun piece => member? (trim piece)

/-- Reads a line. -/
def parse (text : String) : Except TypedefLineError TypedefLine :=
  let line := trim text.toList
  match cutName? line with
  | none => .error (.missingName (String.ofList line))
  | some (name, definition) =>
    match cutAt '(' definition with
    | none => .error (.unbalanced (String.ofList line))
    | some (keyword, rest) =>
      match isUnionKeyword? keyword with
      | none => .error (.unknownKind (String.ofList keyword))
      | some isUnion =>
        match cutBody? rest with
        | none => .error (.unbalanced (String.ofList line))
        | some body =>
          match members? body with
          | none => .error (.emptyMember (String.ofList line))
          | some members => .ok ⟨String.ofList name, isUnion, members⟩

end TypedefLine

end BlockForm
