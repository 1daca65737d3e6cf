import BlockForm.Proofs.Growth

/-!
# BlockForm.Proofs.Coherence — the tables of a function refer to each other consistently

`Function.Coherent f`: the first value is the absent one, results and instructions point at each other, labels
and blocks point at each other, and an instruction reads only typed values, of which results belong to earlier
instructions.  Every building step keeps it.
-/

namespace BlockForm

/-- The value can be read by an instruction: it is neither a label nor the absent one. -/
def Value.IsOperand (x : Value) : Prop := (∀ b, x.kind ≠ .label b) ∧ x.kind ≠ .nil

namespace Function

variable {f g : Function}

/-! ## Look-ups after a change -/

theorem getElem?_push_handle {α : Type} {kind : HandleKind} (xs : Array α) (x : α) (h : Handle kind) :
    (xs.push x)[h.index]? = if h = ⟨xs.size⟩ then some x else xs[h.index]? := by
  rw [Array.getElem?_push]
  obtain ⟨i⟩ := h
  simp

theorem value?_withValue (x : Value) (v : ValueId) :
    (f.withValue x).value? v = if v = f.nextValue then some x else f.value? v :=
  getElem?_push_handle _ _ _

theorem value?_withLabel (v : ValueId) :
    f.withLabel.value? v =
      if v = f.nextValue then some ⟨.label f.nextBlock, none, f.labelName⟩ else f.value? v :=
  getElem?_push_handle _ _ _

theorem block?_withLabel_eq (b : BlockId) :
    f.withLabel.block? b = if b = f.nextBlock then some ⟨f.nextValue, #[], none⟩ else f.block? b :=
  getElem?_push_handle _ _ _

theorem value?_withInstruction (operation : Operation) (ty : Option LoweredType) (v : ValueId) :
    (f.withInstruction operation ty).value? v =
      if ty.isSome ∧ v = f.nextValue then some ⟨.result f.nextInstruction, ty, f.variableName⟩
      else f.value? v := by
  cases ty with
  | none => simp; rfl
  | some ty =>
    simp only [Option.isSome_some, true_and]
    exact getElem?_push_handle _ _ _

theorem instruction?_withInstruction (operation : Operation) (ty : Option LoweredType) (i : InstructionId) :
    (f.withInstruction operation ty).instruction? i =
      if i = f.nextInstruction then some ⟨operation, f.resultValue ty⟩ else f.instruction? i := by
  rw [instruction?, instructions_withInstruction, getElem?_push_handle]
  rfl

theorem block?_put {b c : BlockId} {x : Block} (hx : f.block? b = some x) (y : Block) :
    (f.put b y).block? c = if c = b then some y else f.block? c := by
  by_cases hcb : c = b
  · subst hcb
    rw [if_pos rfl, block?_put_self hx]
  · rw [if_neg hcb, block?_put_of_ne y hcb]

theorem block?_withEmitted {b : BlockId} {x : Block} (hx : f.block? b = some x) (op : Operation)
    (ty : Option LoweredType) (c : BlockId) :
    (f.withEmitted b x op ty).block? c =
      if c = b then some { x with instructions := x.instructions.push f.nextInstruction } else f.block? c := by
  rw [withEmitted, block?_put (by rw [block?_withInstruction, hx]), block?_withInstruction]

theorem block?_withExit {b : BlockId} {x : Block} (hx : f.block? b = some x) (e : Exit) (c : BlockId) :
    (f.withExit b x e).block? c = if c = b then some { x with exit := some e } else f.block? c :=
  block?_put hx _

theorem block?_withReturn {b : BlockId} {x : Block} (hx : f.block? b = some x) (value : Option ValueId)
    (c : BlockId) :
    (f.withReturn b x value).block? c =
      if c = b then some { x with exit := some (.give f.nextInstruction) } else f.block? c := by
  rw [withReturn, block?_withExit (by rw [block?_withInstruction, hx]), block?_withInstruction]

theorem value?_lt {v : ValueId} {x : Value} (h : f.value? v = some x) : v.index < f.values.size :=
  (Array.getElem?_eq_some_iff.1 h).1

theorem instruction?_lt {i : InstructionId} {x : Instruction} (h : f.instruction? i = some x) :
    i.index < f.instructions.size :=
  (Array.getElem?_eq_some_iff.1 h).1

theorem block?_lt {b : BlockId} {x : Block} (h : f.block? b = some x) : b.index < f.blocks.size :=
  (Array.getElem?_eq_some_iff.1 h).1

theorem exists_block? {b : BlockId} (h : b.index < f.blocks.size) : ∃ x, f.block? b = some x :=
  ⟨f.blocks[b.index], Array.getElem?_eq_getElem h⟩

theorem operandType_eq_ok {v : ValueId} {ty : LoweredType} :
    f.operandType v = .ok ty ↔ ∃ x, f.value? v = some x ∧ x.ty = some ty := by
  unfold operandType
  cases f.value? v with
  | none => simp
  | some x => cases hx : x.ty <;> simp [hx]

theorem operandType_eq_ok_iff_valueType? {v : ValueId} {ty : LoweredType} :
    f.operandType v = .ok ty ↔ f.valueType? v = some ty := by
  rw [operandType_eq_ok, valueType?, Option.bind_eq_some_iff]

/-- The tables of a function refer to each other consistently. -/
structure Coherent (f : Function) : Prop where
  /-- The first value is the absent one. -/
  absent : f.value? nilValue = some .nil
  /-- A typed value can be read. -/
  operand : ∀ {v x}, f.value? v = some x → x.ty.isSome → x.IsOperand
  /-- A result belongs to its instruction. -/
  result : ∀ {v x i}, f.value? v = some x → x.kind = .result i → ∃ ins, f.instruction? i = some ins ∧ ins.value = v
  /-- An instruction has its own result or none. -/
  value : ∀ {i ins}, f.instruction? i = some ins →
    ins.value = nilValue ∨ ∃ x, f.value? ins.value = some x ∧ x.kind = .result i
  /-- A label belongs to its block. -/
  label : ∀ {v x b}, f.value? v = some x → x.kind = .label b → ∃ y, f.block? b = some y ∧ y.label = v
  /-- A block has its own label. -/
  block : ∀ {b y}, f.block? b = some y → ∃ x, f.value? y.label = some x ∧ x.kind = .label b
  /-- An instruction reads typed values, and results of earlier instructions only. -/
  reads : ∀ {i ins}, f.instruction? i = some ins → ∀ v ∈ ins.operation.operands,
    ∃ x, f.value? v = some x ∧ x.ty.isSome ∧ ∀ j, x.kind = .result j → j.index < i.index
  /-- An exit leads to labels. -/
  targets : ∀ {b y e}, f.block? b = some y → y.exit = some e → ∀ t ∈ e.targets, ∃ c, f.labelTarget? t = some c

theorem Grows.labelTarget? (hg : Grows f g) {t : ValueId} {c : BlockId} (h : f.labelTarget? t = some c) :
    g.labelTarget? t = some c := by
  obtain ⟨x, hx, hc⟩ := Option.bind_eq_some_iff.1 h
  exact Option.bind_eq_some_iff.2 ⟨x, hg.value? hx, hc⟩

namespace Coherent

theorem label_iff (h : Coherent f) {t : ValueId} {c : BlockId} :
    f.labelTarget? t = some c ↔ ∃ y, f.block? c = some y ∧ y.label = t := by
  constructor
  · intro ht
    obtain ⟨x, hx, hc⟩ := Option.bind_eq_some_iff.1 ht
    refine h.label hx ?_
    unfold Value.label? at hc
    split at hc
    · next b hk => cases hc; exact hk
    · cases hc
  · rintro ⟨y, hy, rfl⟩
    obtain ⟨x, hx, hk⟩ := h.block hy
    exact Option.bind_eq_some_iff.2 ⟨x, hx, by simp [Value.label?, hk]⟩

/-- Only values, instructions and blocks matter. -/
theorem congr (h : Coherent f) (hv : g.values = f.values) (hi : g.instructions = f.instructions)
    (hb : g.blocks = f.blocks) : Coherent g := by
  have hv' : ∀ v, g.value? v = f.value? v := fun v => by simp only [value?, hv]
  have hi' : ∀ i, g.instruction? i = f.instruction? i := fun i => by simp only [instruction?, hi]
  have hb' : ∀ b, g.block? b = f.block? b := fun b => by simp only [block?, hb]
  have ht' : ∀ t, g.labelTarget? t = f.labelTarget? t := fun t => by simp only [labelTarget?, hv']
  constructor <;> simp only [hv', hi', hb', ht']
  · exact h.absent
  · exact h.operand
  · exact h.result
  · exact h.value
  · exact h.label
  · exact h.block
  · exact h.reads
  · exact h.targets

/-- Adding a value that is neither a result nor a label. -/
theorem withValue (h : Coherent f) {x : Value} (ho : x.IsOperand) (hr : ∀ i, x.kind ≠ .result i) :
    Coherent (f.withValue x) := by
  have hg : f.Grows (f.withValue x) := grows_withValue x
  have hnew : ∀ {v y}, (f.withValue x).value? v = some y → f.value? v = some y ∨ y = x := by
    intro v y hy
    rw [value?_withValue] at hy
    split at hy
    · exact Or.inr (Option.some.inj hy).symm
    · exact Or.inl hy
  refine ⟨hg.value? h.absent, ?_, ?_, ?_, ?_, ?_, ?_, ?_⟩
  · intro v y hy hty
    rcases hnew hy with hy | rfl
    · exact h.operand hy hty
    · exact ho
  · intro v y i hy hk
    rcases hnew hy with hy | rfl
    · exact h.result hy hk
    · exact absurd hk (hr i)
  · intro i ins hi
    rcases h.value hi with hn | ⟨y, hy, hk⟩
    · exact Or.inl hn
    · exact Or.inr ⟨y, hg.value? hy, hk⟩
  · intro v y b hy hk
    rcases hnew hy with hy | rfl
    · exact h.label hy hk
    · exact absurd hk (ho.1 b)
  · intro b y hy
    obtain ⟨z, hz, hk⟩ := h.block hy
    exact ⟨z, hg.value? hz, hk⟩
  · intro i ins hi v hv
    obtain ⟨y, hy, hty, hj⟩ := h.reads hi v hv
    exact ⟨y, hg.value? hy, hty, hj⟩
  · intro b y e hy he t ht
    obtain ⟨c, hc⟩ := h.targets hy he t ht
    exact ⟨c, hg.labelTarget? hc⟩

/-- Making a block and its label. -/
theorem withLabel (h : Coherent f) : Coherent f.withLabel := by
  have hg : f.Grows f.withLabel := grows_withLabel
  have hnew : ∀ {v y}, f.withLabel.value? v = some y →
      f.value? v = some y ∨ (v = f.nextValue ∧ y = ⟨.label f.nextBlock, none, f.labelName⟩) := by
    intro v y hy
    rw [value?_withLabel] at hy
    split at hy
    · next hv => exact Or.inr ⟨hv, (Option.some.inj hy).symm⟩
    · exact Or.inl hy
  have hblock : ∀ {b y}, f.withLabel.block? b = some y →
      f.block? b = some y ∨ (b = f.nextBlock ∧ y = ⟨f.nextValue, #[], none⟩) := by
    intro b y hy
    rw [block?_withLabel_eq] at hy
    split at hy
    · next hb => exact Or.inr ⟨hb, (Option.some.inj hy).symm⟩
    · exact Or.inl hy
  have hself : f.withLabel.value? f.nextValue = some ⟨.label f.nextBlock, none, f.labelName⟩ := by
    rw [value?_withLabel, if_pos rfl]
  have hbself : f.withLabel.block? f.nextBlock = some ⟨f.nextValue, #[], none⟩ := by
    rw [block?_withLabel_eq, if_pos rfl]
  refine ⟨hg.value? h.absent, ?_, ?_, ?_, ?_, ?_, ?_, ?_⟩
  · intro v y hy hty
    rcases hnew hy with hy | ⟨-, rfl⟩
    · exact h.operand hy hty
    · simp at hty
  · intro v y i hy hk
    rcases hnew hy with hy | ⟨-, rfl⟩
    · exact h.result hy hk
    · cases hk
  · intro i ins hi
    rcases h.value hi with hn | ⟨y, hy, hk⟩
    · exact Or.inl hn
    · exact Or.inr ⟨y, hg.value? hy, hk⟩
  · intro v y b hy hk
    rcases hnew hy with hy | ⟨rfl, rfl⟩
    · obtain ⟨z, hz, hl⟩ := h.label hy hk
      exact ⟨z, block?_withLabel hz, hl⟩
    · cases hk
      exact ⟨_, hbself, rfl⟩
  · intro b y hy
    rcases hblock hy with hy | ⟨rfl, rfl⟩
    · obtain ⟨z, hz, hk⟩ := h.block hy
      exact ⟨z, hg.value? hz, hk⟩
    · exact ⟨_, hself, rfl⟩
  · intro i ins hi v hv
    obtain ⟨y, hy, hty, hj⟩ := h.reads hi v hv
    exact ⟨y, hg.value? hy, hty, hj⟩
  · intro b y e hy he t ht
    rcases hblock hy with hy | ⟨-, rfl⟩
    · obtain ⟨c, hc⟩ := h.targets hy he t ht
      exact ⟨c, hg.labelTarget? hc⟩
    · cases he

/-- Adding an instruction that reads typed values. -/
theorem withInstruction (h : Coherent f) {operation : Operation} {ty : Option LoweredType}
    (hop : ∀ v ∈ operation.operands, ∃ x, f.value? v = some x ∧ x.ty.isSome) :
    Coherent (f.withInstruction operation ty) := by
  have hg : f.Grows (f.withInstruction operation ty) := grows_withInstruction operation ty
  have hnew : ∀ {v y}, (f.withInstruction operation ty).value? v = some y → f.value? v = some y ∨
      (ty.isSome ∧ v = f.nextValue ∧ y = ⟨.result f.nextInstruction, ty, f.variableName⟩) := by
    intro v y hy
    rw [value?_withInstruction] at hy
    split at hy
    · next hv => exact Or.inr ⟨hv.1, hv.2, (Option.some.inj hy).symm⟩
    · exact Or.inl hy
  have hins : ∀ {i ins}, (f.withInstruction operation ty).instruction? i = some ins →
      f.instruction? i = some ins ∨ (i = f.nextInstruction ∧ ins = ⟨operation, f.resultValue ty⟩) := by
    intro i ins hi
    rw [instruction?_withInstruction] at hi
    split at hi
    · next h' => exact Or.inr ⟨h', (Option.some.inj hi).symm⟩
    · exact Or.inl hi
  refine ⟨hg.value? h.absent, ?_, ?_, ?_, ?_, ?_, ?_, ?_⟩
  · intro v y hy hty
    rcases hnew hy with hy | ⟨-, -, rfl⟩
    · exact h.operand hy hty
    · exact ⟨fun _ => nofun, nofun⟩
  · intro v y i hy hk
    rcases hnew hy with hy | ⟨hs, rfl, rfl⟩
    · obtain ⟨ins, hi, hv⟩ := h.result hy hk
      exact ⟨ins, hg.instruction? hi, hv⟩
    · cases hk
      refine ⟨⟨operation, f.resultValue ty⟩, by rw [instruction?_withInstruction, if_pos rfl], ?_⟩
      obtain ⟨t, rfl⟩ := Option.isSome_iff_exists.1 hs
      rfl
  · intro i ins hi
    rcases hins hi with hi | ⟨rfl, rfl⟩
    · rcases h.value hi with hn | ⟨y, hy, hk⟩
      · exact Or.inl hn
      · exact Or.inr ⟨y, hg.value? hy, hk⟩
    · cases ty with
      | none => exact Or.inl rfl
      | some t => exact Or.inr ⟨_, by rw [value?_withInstruction, if_pos ⟨rfl, rfl⟩], rfl⟩
  · intro v y b hy hk
    rcases hnew hy with hy | ⟨-, -, rfl⟩
    · simpa using h.label hy hk
    · cases hk
  · intro b y hy
    obtain ⟨z, hz, hk⟩ := h.block (by simpa using hy)
    exact ⟨z, hg.value? hz, hk⟩
  · intro i ins hi v hv
    rcases hins hi with hi | ⟨rfl, rfl⟩
    · obtain ⟨y, hy, hty, hj⟩ := h.reads hi v hv
      exact ⟨y, hg.value? hy, hty, hj⟩
    · obtain ⟨y, hy, hty⟩ := hop v hv
      refine ⟨y, hg.value? hy, hty, fun j hj => ?_⟩
      obtain ⟨ins, hins, -⟩ := h.result hy hj
      exact instruction?_lt hins
  · intro b y e hy he t ht
    obtain ⟨c, hc⟩ := h.targets (by simpa using hy) he t ht
    exact ⟨c, hg.labelTarget? hc⟩

/-- Changing a block whose label stays and whose exit leads to labels. -/
theorem put (h : Coherent f) {b : BlockId} {x y : Block} (hx : f.block? b = some x) (hl : y.label = x.label)
    (he : ∀ e, y.exit = some e → ∀ t ∈ e.targets, ∃ c, f.labelTarget? t = some c) : Coherent (f.put b y) := by
  have hb : ∀ {c z}, (f.put b y).block? c = some z → f.block? c = some z ∨ (c = b ∧ z = y) := by
    intro c z hz
    rw [block?_put hx] at hz
    split at hz
    · next hcb => exact Or.inr ⟨hcb, (Option.some.inj hz).symm⟩
    · exact Or.inl hz
  refine ⟨h.absent, h.operand, h.result, h.value, ?_, ?_, h.reads, ?_⟩
  · intro v z c hz hk
    obtain ⟨w, hw, hwl⟩ := h.label hz hk
    by_cases hcb : c = b
    · subst hcb
      rw [hx] at hw
      cases hw
      exact ⟨y, block?_put_self hx, hl.trans hwl⟩
    · exact ⟨w, by rw [block?_put_of_ne y hcb, hw], hwl⟩
  · intro c z hz
    rcases hb hz with hz | ⟨rfl, rfl⟩
    · exact h.block hz
    · rw [hl]
      exact h.block hx
  · intro c z e hz hze
    rcases hb hz with hz | ⟨rfl, rfl⟩
    · exact h.targets hz hze
    · exact he e hze

end Coherent

end Function

end BlockForm
