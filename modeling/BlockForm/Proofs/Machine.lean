import Mathlib.Logic.Function.Basic
import Mathlib.Logic.Relation
import BlockForm.Proofs.Coherence

/-!
# BlockForm.Proofs.Machine — running the blocks of a function

A machine runs the blocks of one function over scalars of any type, with the operations on them given by an
`Interpretation`.  A slot is a cell of a memory that only grows, a call is an event whose answer the interpretation
knows, and instructions on composite values have no step.
-/

namespace BlockForm

/-- Integers and truth values. -/
def Elementary.isDiscrete (e : Elementary) : Bool := e.isInteger || e == .bool

/-- What the operations on scalars come to, and what calls answer. -/
structure Interpretation (V : Type) where
  constant : Constant → Elementary → V
  arith : ArithOp → Elementary → V → V → V
  cmp : CmpOp → Elementary → V → V → V
  logic : LogicOp → V → V → V
  convert : (source target : Elementary) → V → V
  /-- Whether a condition holds. -/
  holds : V → Bool
  /-- What a fresh cell holds. -/
  blank : Elementary → V
  /-- The answer to a call, by the number of calls before it. -/
  answer : Nat → String → List V → V

/-- Converting a constant gives the retyped constant wherever there is one. -/
def Interpretation.Lawful {V : Type} (I : Interpretation V) : Prop :=
  ∀ {c c' : Constant} {source target : Elementary}, source.isDiscrete = true → target.isDiscrete = true →
    c.retyped? source = some c → c.retyped? target = some c' →
    I.convert source target (I.constant c source) = I.constant c' target

/-- A call with the values of its arguments. -/
structure Call (V : Type) where
  name : String
  args : List V
  deriving DecidableEq

/-- What a value of a function stands for at run time. -/
inductive Datum (V : Type) where
  | scalar (v : V)
  /-- The address of a cell. -/
  | cell (n : Nat)
  deriving DecidableEq

namespace Datum

variable {V : Type}

/-- The scalar, if it is one. -/
def scalar? : Datum V → Option V
  | scalar v => some v
  | cell _ => none

/-- The number of the cell, for an address. -/
def cell? : Datum V → Option Nat
  | scalar _ => none
  | cell n => some n

end Datum

/-- A moment of a run. -/
structure Config (V : Type) where
  block : BlockId
  /-- How many instructions of the block have been passed. -/
  position : Nat
  /-- The results so far. -/
  registers : InstructionId → Option (Datum V)
  cells : List V
  /-- The calls so far. -/
  calls : List (Call V)

/-- A function with the arguments it is run on. -/
structure Machine (V : Type) where
  meaning : Interpretation V
  function : Function
  arguments : List V

namespace Machine

variable {V : Type} (M : Machine V)

/-- What a value stands for. -/
def datum (c : Config V) (v : ValueId) : Option (Datum V) :=
  (M.function.value? v).bind fun x =>
    match x.kind with
    | .constant k => (x.ty.bind LoweredType.elementary?).map fun e => .scalar (M.meaning.constant k e)
    | .argument i => M.arguments[i]?.map .scalar
    | .result i => c.registers i
    | .label _ | .literal _ _ | .nil => none

/-- The scalar a value stands for. -/
def scalar (c : Config V) (v : ValueId) : Option V := (M.datum c v).bind Datum.scalar?

/-- The cell a value is the address of. -/
def cell (c : Config V) (v : ValueId) : Option Nat := (M.datum c v).bind Datum.cell?

/-- The elementary type of a value. -/
def typeOf (v : ValueId) : Option Elementary := (M.function.valueType? v).bind LoweredType.elementary?

/-- What an operation produces, with the cells and the calls after it. -/
def execute (c : Config V) : Operation → Option (Option (Datum V) × List V × List (Call V))
  | .alloca ty count => do
    let e ← ty.elementary?
    return (some (.cell c.cells.length), c.cells ++ List.replicate count (M.meaning.blank e), c.calls)
  | .read memory => do
    let n ← M.cell c memory
    let v ← c.cells[n]?
    return (some (.scalar v), c.cells, c.calls)
  | .write memory value => do
    let n ← M.cell c memory
    let v ← M.scalar c value
    if n < c.cells.length then return (none, c.cells.set n v, c.calls) else none
  | .convert value target => do
    let source ← M.typeOf value
    let e ← target.elementary?
    let v ← M.scalar c value
    return (some (.scalar (M.meaning.convert source e v)), c.cells, c.calls)
  | .call name args => do
    let vs ← args.mapM (M.scalar c)
    return (some (.scalar (M.meaning.answer c.calls.length name vs)), c.cells, c.calls ++ [⟨name, vs⟩])
  | .arith op left right => do
    let e ← M.typeOf left
    let v ← M.scalar c left
    let w ← M.scalar c right
    return (some (.scalar (M.meaning.arith op e v w)), c.cells, c.calls)
  | .cmp op left right => do
    let e ← M.typeOf left
    let v ← M.scalar c left
    let w ← M.scalar c right
    return (some (.scalar (M.meaning.cmp op e v w)), c.cells, c.calls)
  | .logic op left right => do
    let v ← M.scalar c left
    let w ← M.scalar c right
    return (some (.scalar (M.meaning.logic op v w)), c.cells, c.calls)
  | .objMemberAt _ _ | .setUnionIdx _ _ | .getUnionIdx _ | .unionMemberAt _ _ | .give _ => none

/-- The moment after an instruction. -/
def after (c : Config V) (i : InstructionId) (effect : Option (Datum V) × List V × List (Call V)) : Config V :=
  ⟨c.block, c.position + 1, Function.update c.registers i effect.1, effect.2.1, effect.2.2⟩

/-- The start of the block that a label names. -/
def goTo (c : Config V) (label : ValueId) : Option (Config V) :=
  (M.function.labelTarget? label).map fun b => { c with block := b, position := 0 }

/-- The next moment: after the next instruction of the block, or at the start of the next block. -/
def step (c : Config V) : Option (Config V) := do
  let x ← M.function.block? c.block
  match x.instructions[c.position]? with
  | some i =>
    let ins ← M.function.instruction? i
    let effect ← M.execute c ins.operation
    return after c i effect
  | none =>
    match x.exit with
    | some (.branch target) => M.goTo c target
    | some (.condBranch condition taken otherwise) => do
      let v ← M.scalar c condition
      M.goTo c (if M.meaning.holds v then taken else otherwise)
    | some (.give _) | some .unreachable | none => none

/-- The first moment, before the first placed block. -/
def start : Option (Config V) := M.function.blockIds.head?.map fun b => ⟨b, 0, fun _ => none, [], []⟩

/-- Any number of steps. -/
def Runs : Config V → Config V → Prop := Relation.ReflTransGen fun c c' => M.step c = some c'

/-- The returned value, at the return of the end block. -/
def returned? (c : Config V) : Option (Option V) := do
  let label ← M.function.endLabel
  let endBlock ← M.function.labelTarget? label
  let x ← M.function.block? c.block
  match x.exit with
  | some (.give j) =>
    let ins ← M.function.instruction? j
    if c.block = endBlock ∧ c.position = x.instructions.size then
      match ins.operation with
      | .give none => some none
      | .give (some v) => (M.scalar c v).map some
      | _ => none
    else none
  | _ => none

/-- The run from the first block comes to the return of the end block, with this value and after these calls. -/
def Returns (value : Option V) (calls : List (Call V)) : Prop :=
  ∃ c₀ c, M.start = some c₀ ∧ M.Runs c₀ c ∧ M.returned? c = some value ∧ c.calls = calls

variable {M}

theorem Runs.refl (c : Config V) : M.Runs c c := Relation.ReflTransGen.refl

theorem Runs.trans {c c' c'' : Config V} (h₁ : M.Runs c c') (h₂ : M.Runs c' c'') : M.Runs c c'' :=
  Relation.ReflTransGen.trans h₁ h₂

theorem Runs.single {c c' : Config V} (h : M.step c = some c') : M.Runs c c' := Relation.ReflTransGen.single h

/-! ## One run -/

/-- There is no step after a return. -/
theorem step_of_returned? {c : Config V} {value : Option V} (h : M.returned? c = some value) : M.step c = none := by
  simp only [returned?, Option.bind_eq_bind, Option.bind_eq_some_iff] at h
  obtain ⟨label, -, endBlock, -, x, hx, h⟩ := h
  cases he : x.exit with
  | none => simp [he] at h
  | some e =>
    cases e with
    | give j =>
      simp only [he, Option.bind_eq_some_iff] at h
      obtain ⟨ins, -, h⟩ := h
      have hpos : c.position = x.instructions.size := by
        by_contra hne
        simp [hne] at h
      simp [step, hx, he, hpos]
    | branch | condBranch | unreachable => simp [he] at h

/-- A run ends at one moment only. -/
theorem Runs.eq_of_stopped {c c₁ c₂ : Config V} (h₁ : M.Runs c c₁) (h₂ : M.Runs c c₂) (hs₁ : M.step c₁ = none)
    (hs₂ : M.step c₂ = none) : c₁ = c₂ := by
  have stopped : ∀ {a b : Config V}, M.step a = none → M.Runs a b → a = b := by
    intro a b ha hab
    rcases hab.cases_head with heq | ⟨d, hd, -⟩
    · exact heq
    · rw [ha] at hd
      cases hd
  have unique : Relator.RightUnique fun a b : Config V => M.step a = some b := fun _ _ _ hb hc =>
    Option.some.inj (hb.symm.trans hc)
  rcases Relation.ReflTransGen.total_of_right_unique unique h₁ h₂ with h | h
  · exact stopped hs₁ h
  · exact (stopped hs₂ h).symm

theorem Returns.unique {value value' : Option V} {calls calls' : List (Call V)} (h : M.Returns value calls)
    (h' : M.Returns value' calls') : value' = value ∧ calls' = calls := by
  obtain ⟨c₀, c, hstart, hruns, hret, rfl⟩ := h
  obtain ⟨c₀', c', hstart', hruns', hret', rfl⟩ := h'
  obtain rfl := Option.some.inj (hstart.symm.trans hstart')
  obtain rfl := hruns.eq_of_stopped hruns' (step_of_returned? hret) (step_of_returned? hret')
  exact ⟨Option.some.inj (hret'.symm.trans hret), rfl⟩

end Machine

end BlockForm
