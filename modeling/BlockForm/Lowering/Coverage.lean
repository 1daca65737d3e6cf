import BlockForm.Lowering.State
import BlockForm.Surface.Expr
import BlockForm.Type.Shape

/-!
# BlockForm.Lowering.Coverage — the members that the cases of a match cover

A case covers the members with the shape of its pattern, whether or not an earlier case covers them too; a
wildcard covers the members that no earlier case does.
-/

namespace BlockForm

/-- Positions, from `start` on, at which a list satisfies a predicate. -/
def positionsFrom {α : Type} (p : α → Bool) : (start : Nat) → List α → List Nat
  | _, [] => []
  | start, a :: as =>
    if p a then start :: positionsFrom p (start + 1) as else positionsFrom p (start + 1) as

/-- The members of a sum that a case covers, given the ones covered before. -/
def MatchCase.covers (sum : Ty) (covered : List Nat) (c : MatchCase) : Except Error (List Nat) :=
  match c.pattern with
  | none => .ok ((List.range sum.members.length).filter fun i => !covered.contains i)
  | some pattern =>
    let indices := positionsFrom (fun member => member.sameShape pattern) 0 sum.members
    if indices.isEmpty then .error (.user (.notAMember pattern.key sum.key) c.span)
    else .ok indices

/-- The members that each case covers, in order. -/
def coverage (sum : Ty) : (covered : List Nat) → List MatchCase → Except Error (List (List Nat))
  | _, [] => .ok []
  | covered, c :: cs => do
    let indices ← c.covers sum covered
    let rest ← coverage sum (covered ++ indices) cs
    return indices :: rest

/-- The cases with the members they cover and the block of each. -/
structure CaseTarget where
  indices : List Nat
  block : BlockId

namespace Lowering

/-- A block for each case. -/
def caseTargets : List (List Nat) → Lowering (List CaseTarget)
  | [] => pure []
  | indices :: rest => do
    let block ← newBlock
    let targets ← caseTargets rest
    return ⟨indices, block⟩ :: targets

/-- The tests of a match: each covered member with the block to go to. -/
def tests (targets : List CaseTarget) : List (Nat × BlockId) :=
  targets.flatMap fun t => t.indices.map (·, t.block)

/-- Compares the discriminant with a position. -/
def testMember (discriminant : ValueId) (index : Nat) : Lowering ValueId := do
  let position ← constant (.int (Int64.ofNat index)) .i64
  emit (.cmp .eq discriminant position)

/-- One comparison and branch for each test; the last one falls through to `fatal`. -/
def dispatch (discriminant : ValueId) (fatal : BlockId) : List (Nat × BlockId) → Lowering Unit
  | [] => branchTo fatal
  | [(index, block)] => do
    let condition ← testMember discriminant index
    branchOn condition block fatal
  | (index, block) :: rest => do
    let condition ← testMember discriminant index
    let next ← newBlock
    branchOn condition block next
    startBlock next
    dispatch discriminant fatal rest

/-- Names the payload of a case that covers a single member. -/
def bindPayload (scrutinee : ValueId) (indices : List Nat) (name : String) (span : Span) :
    Lowering Unit :=
  match indices with
  | [index] => do
    if index < Handle.limit then
      let payload ← emit (.unionMemberAt scrutinee index)
      define name payload
    else Action.fault (.unionMemberRange index)
  | _ => Action.fail (.user (.bindingWithoutMember name indices.length) span)

end Lowering

end BlockForm
