import BlockForm.Lowering.State
import BlockForm.Type.Shape

/-!
# BlockForm.Lowering.Construction — how a value is put together in memory

A single argument of the type itself is stored whole.  For a sum, the first member that the arguments can build
is chosen and built in the payload.  Any other composite takes one argument for each member, and an elementary
value its single argument.  The plan is made from types alone; the steps that follow it are below.
-/

namespace BlockForm

/-- What is left to do once the payload has been chosen. -/
inductive FillGoal where
  /-- Store the single argument. -/
  | whole
  /-- Store each argument in its member. -/
  | memberwise
  /-- There is no way to go on. -/
  | impossible (fault : Fault)
  deriving DecidableEq

/-- Which member of each nested sum to build, from the outside in, and what to do there. -/
structure FillPlan where
  path : List Nat
  goal : FillGoal
  deriving DecidableEq

namespace FillPlan

/-- A single argument has the type itself. -/
def isCopy (args : List Ty) (ty : Ty) : Bool :=
  match args with
  | [arg] => arg.sameShape ty
  | _ => false

/-- The arguments can build a member of a sum: as a copy, or as a product one by one. -/
def builds (args : List Ty) (member : Ty) : Bool :=
  isCopy args member || (member.isProduct && Ty.sameShapes args member.members)

/-- The plan for a member, entered at a position. -/
def enter (index : Nat) (plan : FillPlan) : FillPlan := { plan with path := index :: plan.path }

/-- The plan for a value of type `ty` from arguments of the given types. -/
def of (args : List Ty) (ty : Ty) : FillPlan :=
  if isCopy args ty then ⟨[], .whole⟩
  else if ty.isSum then
    match h : ty.members.findIdx? (builds args) with
    | some i =>
      enter i (of args (ty.members.get ⟨i, (List.findIdx?_eq_some_iff_findIdx_eq.1 h).1⟩))
    | none => ⟨[], .impossible (.noBuildableMember ty.key (args.map Ty.key))⟩
  else if ty.isComposite then
    if ty.members.length = args.length then ⟨[], .memberwise⟩
    else ⟨[], .impossible (.constructorArity ty.key ty.members.length args.length)⟩
  else if args.length = 1 then ⟨[], .whole⟩
  else ⟨[], .impossible (.notBuildable ty.key args.length)⟩
termination_by ty.height
decreasing_by exact Ty.height_lt_of_mem_members (List.get_mem _ _)

end FillPlan

/-- A place to build in: an address, and what to do there. -/
structure FillSite where
  memory : ValueId
  goal : FillGoal

namespace Lowering

/-- The position of a member, if an instruction can hold it. -/
def memberIndex (index : Nat) : Lowering Nat :=
  if index < Handle.limit then pure index else Action.fault (.memberIndexRange index)

/-- Makes a member of a union present and gives the address of its payload. -/
def enterMember (memory : ValueId) (index : Nat) : Lowering ValueId := do
  let discriminant ← constant (.int (Int64.ofNat index)) .i64
  let _ ← emit (.setUnionIdx memory discriminant)
  let index ← memberIndex index
  emit (.unionMemberAt memory index)

/-- Enters members one after another. -/
def enterPath (memory : ValueId) : List Nat → Lowering ValueId
  | [] => pure memory
  | index :: path => do
    let payload ← enterMember memory index
    enterPath payload path

/-- Follows a plan to the place where the arguments go. -/
def prepare (memory : ValueId) (plan : FillPlan) : Lowering FillSite := do
  let memory ← enterPath memory plan.path
  match plan.goal with
  | .impossible fault => Action.fault fault
  | goal => return ⟨memory, goal⟩

/-- Stores argument `index` at its place. -/
def storeArgument (site : FillSite) (index : Nat) (v : ValueId) : Lowering Unit := do
  match site.goal with
  | .memberwise =>
    let index ← memberIndex index
    let slot ← emit (.objMemberAt site.memory index)
    store slot v
  | _ => store site.memory v

end Lowering

end BlockForm
