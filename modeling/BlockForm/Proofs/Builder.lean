import BlockForm.Proofs.Action

/-!
# BlockForm.Proofs.Builder — what each building step does to a function

The changes a function can go through are written as plain functions (`withValue`, `withLabel`, `withEmitted`,
`withExit`, `place`), and one `_gives` lemma for each step of `BlockForm.Code.Builder` says which change a successful
run makes and which checks it passed.  Later modules cite these and never open a step again.
-/

namespace BlockForm

open Action

namespace Function

/-! ## Changes -/

section Changes

variable (f : Function)

/-- The handle of the next value. -/
def nextValue : ValueId := ⟨f.values.size⟩

/-- The handle of the next instruction. -/
def nextInstruction : InstructionId := ⟨f.instructions.size⟩

/-- The handle of the next block. -/
def nextBlock : BlockId := ⟨f.blocks.size⟩

/-- The function with one more value. -/
def withValue (v : Value) : Function := { f with values := f.values.push v }

/-- The function with a value remembered for a literal. -/
def withLiteral (id : GlobalId) (v : Value) : Function :=
  { f.withValue v with literals := f.literals ++ [(id, f.nextValue)] }

/-- The label text of the next block. -/
def labelName : String := "%label_" ++ f.nextLabel.repr

/-- The function with one more block, which is empty and open. -/
def withLabel : Function :=
  { f with
    nextLabel := f.nextLabel + 1
    names := f.names.insert f.labelName (.block f.nextBlock)
    values := f.values.push ⟨.label f.nextBlock, none, f.labelName⟩
    blocks := f.blocks.push ⟨f.nextValue, #[], none⟩ }

/-- The name of the next variable. -/
def variableName : String := "$" ++ f.nextVariable.repr

/-- The value of the next instruction, given the type of its result. -/
def resultValue (ty : Option LoweredType) : ValueId := ty.elim nilValue fun _ => f.nextValue

/-- The function with one more instruction, which is in no block. -/
def withInstruction (operation : Operation) : (ty : Option LoweredType) → Function
  | none => { f with instructions := f.instructions.push ⟨operation, nilValue⟩ }
  | some ty =>
    { f with
      nextVariable := f.nextVariable + 1
      names := f.names.insert f.variableName (.instruction f.nextInstruction)
      values := f.values.push ⟨.result f.nextInstruction, some ty, f.variableName⟩
      instructions := f.instructions.push ⟨operation, f.nextValue⟩ }

/-- The function with another block in the place of one it has. -/
def put (b : BlockId) (block : Block) : Function :=
  { f with blocks := f.blocks.setIfInBounds b.index block }

/-- The function with one more instruction, at the end of block `b`, which is `x`. -/
def withEmitted (b : BlockId) (x : Block) (operation : Operation) (ty : Option LoweredType) : Function :=
  (f.withInstruction operation ty).put b { x with instructions := x.instructions.push f.nextInstruction }

/-- The function with the exit of block `b`, which is `x`. -/
def withExit (b : BlockId) (x : Block) (exit : Exit) : Function := f.put b { x with exit := some exit }

/-- The function with a return as the exit of block `b`, which is `x`. -/
def withReturn (b : BlockId) (x : Block) (value : Option ValueId) : Function :=
  (f.withInstruction (.give value) none).withExit b x (.give f.nextInstruction)

/-- The function with one more block placed. -/
def place (b : BlockId) : Function := { f with layout := f.layout.map (·.push b) }

end Changes

variable {f f' : Function}

/-! ## Steps -/

theorem bindName_gives {name : String} {object : Object} {a : Unit} :
    Gives (bindName name object) f a f' ↔
      f.names.get? name = none ∧ { f with names := f.names.insert name object } = f' := by
  unfold Gives bindName NameTable.bind
  cases f.names.get? name <;> simp

theorem pushValue_gives {v : Value} {id : ValueId} :
    Gives (pushValue v) f id f' ↔
      f.values.size < Handle.limit ∧ f.nextValue = id ∧ f.withValue v = f' := by
  simp only [pushValue, gives_get_bind, gives_handle_bind, gives_modify_bind, gives_pure, nextValue, withValue]

theorem freshVariable_gives {name : String} :
    Gives freshVariable f name f' ↔
      f.variableName = name ∧ { f with nextVariable := f.nextVariable + 1 } = f' := by
  simp [Gives, freshVariable, variableName]

theorem freshLabel_gives {name : String} :
    Gives freshLabel f name f' ↔ f.labelName = name ∧ { f with nextLabel := f.nextLabel + 1 } = f' := by
  simp [Gives, freshLabel, labelName]

theorem constant_gives {c : Constant} {e : Elementary} {v : ValueId} :
    Gives (constant c e) f v f' ↔
      f.values.size < Handle.limit ∧ f.nextValue = v ∧
        f.withValue ⟨.constant c, some (.elementary e), c.text⟩ = f' :=
  pushValue_gives

/-- A literal is found again, or its value is made and remembered. -/
theorem literal_gives {id : GlobalId} {g : Global} {v : ValueId} (h : Gives (literal id g) f v f') :
    (f.literals.lookup id = some v ∧ f' = f) ∨
      (f.literals.lookup id = none ∧ f.values.size < Handle.limit ∧ v = f.nextValue ∧
        f' = f.withLiteral id ⟨.literal id g.content, some g.ty, g.name⟩) := by
  simp only [literal, gives_get_bind] at h
  cases hl : f.literals.lookup id with
  | some w =>
    rw [hl] at h
    simp only [gives_pure] at h
    obtain ⟨rfl, rfl⟩ := h
    exact Or.inl ⟨rfl, rfl⟩
  | none =>
    rw [hl] at h
    simp only [gives_bind (x := pushValue _), pushValue_gives, gives_modify_bind, gives_pure] at h
    obtain ⟨w, g', ⟨hlt, rfl, rfl⟩, rfl, rfl⟩ := h
    exact Or.inr ⟨rfl, hlt, rfl, rfl⟩

theorem newBlock_gives {b : BlockId} (h : Gives newBlock f b f') :
    f.isDeclaration = false ∧ f.blocks.size < Handle.limit ∧ f.values.size < Handle.limit ∧
      f.names.get? f.labelName = none ∧ b = f.nextBlock ∧ f' = f.withLabel := by
  simp only [newBlock, gives_get_bind, gives_ite, not_gives_fault, and_false, false_or, gives_handle_bind,
    gives_bind (x := freshLabel), gives_bind (x := bindName _ _), gives_bind (x := pushValue _),
    freshLabel_gives, bindName_gives, pushValue_gives, gives_modify_bind, gives_pure] at h
  obtain ⟨hd, hb, _, _, ⟨rfl, rfl⟩, _, _, ⟨hn, rfl⟩, _, _, ⟨hv, rfl, rfl⟩, rfl, rfl⟩ := h
  exact ⟨by simpa using hd, hb, hv, hn, rfl, rfl⟩

theorem appendBlock_gives {b : BlockId} {a : Unit} (h : Gives (appendBlock b) f a f') :
    ∃ l, f.layout = some l ∧ b ∉ l ∧ f' = f.place b := by
  simp only [appendBlock, gives_get_bind] at h
  cases hl : f.layout with
  | none => simp [hl] at h
  | some l =>
    simp only [hl, gives_ite, not_gives_fault, and_false, false_or, gives_set] at h
    refine ⟨l, rfl, by simpa using h.1, ?_⟩
    rw [← h.2, place, hl]
    rfl

theorem labelOf_gives {b : BlockId} {v : ValueId} :
    Gives (labelOf b) f v f' ↔ (∃ block, f.block? b = some block ∧ block.label = v) ∧ f = f' := by
  simp only [labelOf, gives_get_bind]
  cases f.block? b <;> simp

theorem openBlock_eq_ok {b : BlockId} {block : Block} :
    f.openBlock b = .ok block ↔ f.block? b = some block ∧ block.exit = none := by
  unfold openBlock
  cases h : f.block? b with
  | none => simp
  | some c =>
    by_cases hc : c.isTerminated
    · simp only [hc, if_true, reduceCtorEq, Option.some.injEq, false_iff, not_and]
      rintro rfl hex
      simp [Block.isTerminated, hex] at hc
    · have : c.exit = none := by simpa [Block.isTerminated] using hc
      simp only [hc, Option.some.injEq]
      constructor
      · rintro ⟨⟩
        exact ⟨rfl, this⟩
      · rintro ⟨rfl, -⟩
        rfl

theorem updateBlock_gives {b : BlockId} {change : Block → Block} {a : Unit} :
    Gives (updateBlock b change) f a f' ↔
      ∃ block, (f.block? b = some block ∧ block.exit = none) ∧ f.put b (change block) = f' := by
  simp [updateBlock, openBlock_eq_ok, put]

theorem newInstruction_gives {operation : Operation} {ty : Option LoweredType} {id : InstructionId}
    (h : Gives (newInstruction operation ty) f id f') :
    f.instructions.size < Handle.limit ∧ id = f.nextInstruction ∧ f' = f.withInstruction operation ty ∧
      (ty.isSome → f.values.size < Handle.limit ∧ f.names.get? f.variableName = none) := by
  cases ty with
  | none =>
    simp only [newInstruction, gives_get_bind, gives_handle_bind, gives_modify_bind, gives_pure, pure_bind] at h
    obtain ⟨hlt, rfl, rfl⟩ := h
    exact ⟨hlt, rfl, rfl, by simp⟩
  | some ty =>
    simp only [newInstruction, gives_get_bind, gives_handle_bind, gives_bind (x := freshVariable),
      gives_bind (x := bindName _ _), gives_bind (x := pushValue _), freshVariable_gives, bindName_gives,
      pushValue_gives, gives_modify_bind, gives_pure] at h
    obtain ⟨hlt, _, _, ⟨rfl, rfl⟩, _, _, ⟨hn, rfl⟩, _, _, ⟨hv, rfl, rfl⟩, rfl, rfl⟩ := h
    exact ⟨hlt, rfl, rfl, fun _ => ⟨hv, hn⟩⟩

/-! ## Tables after a change -/

@[simp] theorem block?_withInstruction (operation : Operation) (ty : Option LoweredType) (b : BlockId) :
    (f.withInstruction operation ty).block? b = f.block? b := by
  cases ty <;> rfl

@[simp] theorem instructions_withInstruction (operation : Operation) (ty : Option LoweredType) :
    (f.withInstruction operation ty).instructions = f.instructions.push ⟨operation, f.resultValue ty⟩ := by
  cases ty <;> rfl

theorem resultOf_withInstruction (operation : Operation) (ty : Option LoweredType) :
    (f.withInstruction operation ty).resultOf f.nextInstruction = f.resultValue ty := by
  simp [resultOf, instruction?, nextInstruction]

/-- The checks an added instruction has passed, and the change it makes. -/
theorem pushInstruction_gives {u : CompilationUnit} {b : BlockId} {operation : Operation} {v : ValueId}
    (h : Gives (pushInstruction u b operation) f v f') :
    ∃ block ty, operation.isTerminator = false ∧ f.block? b = some block ∧ block.exit = none ∧
      f.resultType u operation = .ok ty ∧ f.instructions.size < Handle.limit ∧
      (ty.isSome → f.values.size < Handle.limit ∧ f.names.get? f.variableName = none) ∧
      v = f.resultValue ty ∧
      f' = f.withEmitted b block operation ty := by
  simp only [pushInstruction, gives_ite, not_gives_fault, and_false, false_or, gives_get_bind, gives_check_bind,
    openBlock_eq_ok, gives_bind (x := newInstruction _ _), gives_report_bind, gives_bind (x := updateBlock _ _),
    updateBlock_gives, gives_pure] at h
  obtain ⟨ht, block, ⟨hb, hex⟩, ty, hty, id, g, hnew, _, _, ⟨c, ⟨hc, hcx⟩, rfl⟩, rfl, rfl⟩ := h
  obtain ⟨hlt, rfl, rfl, hv⟩ := newInstruction_gives hnew
  rw [block?_withInstruction, hb] at hc
  cases hc
  exact ⟨block, ty, by simpa using ht, hb, hex, hty, hlt, hv, resultOf_withInstruction _ _, rfl⟩

theorem checkLabel_eq_ok {v : ValueId} : f.checkLabel v = .ok () ↔ ∃ b, f.labelTarget? v = some b := by
  unfold checkLabel
  cases f.labelTarget? v <;> simp

/-- The operands of an exit that can be set: labels to go to, and a truth value to look at. -/
theorem checkExit_eq_ok {exit : Exit} :
    f.checkExit exit = .ok () ↔
      (∀ t ∈ exit.targets, ∃ b, f.labelTarget? t = some b) ∧
      ∀ c ∈ exit.conditions, ∃ ty, f.operandType c = .ok ty ∧ ty.isBool = true := by
  cases exit with
  | branch target => simp [checkExit, Exit.targets, Exit.conditions, checkLabel_eq_ok]
  | condBranch condition taken otherwise =>
    simp only [checkExit, Exit.targets, Exit.conditions, List.mem_cons, List.not_mem_nil, or_false,
      forall_eq_or_imp, forall_eq]
    cases hc : f.operandType condition with
    | error flt => simp [bind, Except.bind]
    | ok ty =>
      by_cases hb : ty.isBool
      · cases h₁ : f.checkLabel taken with
        | error flt =>
          have : ¬ ∃ b, f.labelTarget? taken = some b := by rw [← checkLabel_eq_ok, h₁]; simp
          simp [bind, Except.bind, hb, this]
        | ok a =>
          simp [bind, Except.bind, hb, checkLabel_eq_ok.1 h₁, checkLabel_eq_ok]
      · simp [bind, Except.bind, hb]
  | give id => simp [checkExit, Exit.targets, Exit.conditions]
  | unreachable => simp [checkExit, Exit.targets, Exit.conditions]

theorem setExit_gives {b : BlockId} {exit : Exit} {a : Unit} :
    Gives (setExit b exit) f a f' ↔
      f.checkExit exit = .ok () ∧
      ∃ block, (f.block? b = some block ∧ block.exit = none) ∧ f.withExit b block exit = f' := by
  simp only [setExit, gives_get_bind, gives_check_bind, updateBlock_gives]
  constructor
  · rintro ⟨_, hc, h⟩
    exact ⟨hc, h⟩
  · rintro ⟨hc, h⟩
    exact ⟨(), hc, h⟩

/-- The checks a return has passed, and the change it makes. -/
theorem setReturn_gives {u : CompilationUnit} {b : BlockId} {value : Option ValueId} {a : Unit}
    (h : Gives (setReturn u b value) f a f') :
    ∃ block ty, f.block? b = some block ∧ block.exit = none ∧ f.resultType u (.give value) = .ok ty ∧
      f.instructions.size < Handle.limit ∧ f' = f.withReturn b block value := by
  simp only [setReturn, gives_get_bind, gives_check_bind, openBlock_eq_ok, gives_bind (x := newInstruction _ _),
    setExit_gives] at h
  obtain ⟨block, ⟨hb, hex⟩, ty, hty, id, g, hnew, -, c, ⟨hc, hcx⟩, rfl⟩ := h
  obtain ⟨hlt, rfl, rfl, -⟩ := newInstruction_gives hnew
  rw [block?_withInstruction, hb] at hc
  cases hc
  exact ⟨block, ty, hb, hex, hty, hlt, rfl⟩

end Function

end BlockForm
