import BlockForm.Proofs.Builder

/-!
# BlockForm.Proofs.Growth — functions only grow

`Function.Grows f g`: the tables of `f` are prefixes of those of `g`, and a block of `f` is in `g` with the same
label and the same instructions at its start, unchanged if it had its exit.  Every change of
`BlockForm.Proofs.Builder` is a growth, so what is known of a value, an instruction or a closed block stays known.
-/

namespace BlockForm

/-- What stands at a position of a list stands there in every longer one. -/
theorem getElem?_of_prefix {α : Type} {xs ys : List α} (h : xs <+: ys) {i : Nat} {x : α}
    (hx : xs[i]? = some x) : ys[i]? = some x := by
  obtain ⟨t, rfl⟩ := h
  obtain ⟨hi, -⟩ := List.getElem?_eq_some_iff.1 hx
  rw [List.getElem?_append_left hi, hx]

/-- A block that has perhaps taken more instructions, or its exit. -/
structure Block.Grows (b c : Block) : Prop where
  label : c.label = b.label
  instructions : b.instructions.toList <+: c.instructions.toList
  closed : b.exit.isSome → c = b

namespace Block.Grows

theorem refl (b : Block) : Block.Grows b b := ⟨rfl, List.prefix_refl _, fun _ => rfl⟩

theorem trans {b c d : Block} (h₁ : Block.Grows b c) (h₂ : Block.Grows c d) : Block.Grows b d := by
  refine ⟨h₂.label.trans h₁.label, h₁.instructions.trans h₂.instructions, fun hb => ?_⟩
  have hcb := h₁.closed hb
  subst hcb
  exact h₂.closed hb

theorem push {b : Block} (hb : b.exit = none) (i : InstructionId) :
    Block.Grows b { b with instructions := b.instructions.push i } :=
  ⟨rfl, by simp, by simp [hb]⟩

theorem leave {b : Block} (hb : b.exit = none) (e : Exit) : Block.Grows b { b with exit := some e } :=
  ⟨rfl, List.prefix_refl _, by simp [hb]⟩

end Block.Grows

namespace Function

/-- A function that has perhaps taken more of everything. -/
structure Grows (f g : Function) : Prop where
  name : g.name = f.name
  arguments : g.arguments = f.arguments
  returnType : g.returnType = f.returnType
  argumentValues : g.argumentValues = f.argumentValues
  endLabel : g.endLabel = f.endLabel
  isDeclaration : g.isDeclaration = f.isDeclaration
  values : f.values.toList <+: g.values.toList
  instructions : f.instructions.toList <+: g.instructions.toList
  blockIds : f.blockIds <+: g.blockIds
  block : ∀ {b x}, f.block? b = some x → ∃ y, g.block? b = some y ∧ x.Grows y

namespace Grows

variable {f g h : Function}

theorem refl (f : Function) : Grows f f :=
  ⟨rfl, rfl, rfl, rfl, rfl, rfl, List.prefix_refl _, List.prefix_refl _, List.prefix_refl _,
    fun hx => ⟨_, hx, .refl _⟩⟩

theorem trans (h₁ : Grows f g) (h₂ : Grows g h) : Grows f h where
  name := h₂.name.trans h₁.name
  arguments := h₂.arguments.trans h₁.arguments
  returnType := h₂.returnType.trans h₁.returnType
  argumentValues := h₂.argumentValues.trans h₁.argumentValues
  endLabel := h₂.endLabel.trans h₁.endLabel
  isDeclaration := h₂.isDeclaration.trans h₁.isDeclaration
  values := h₁.values.trans h₂.values
  instructions := h₁.instructions.trans h₂.instructions
  blockIds := h₁.blockIds.trans h₂.blockIds
  block := fun hx => by
    obtain ⟨y, hy, hxy⟩ := h₁.block hx
    obtain ⟨z, hz, hyz⟩ := h₂.block hy
    exact ⟨z, hz, hxy.trans hyz⟩

theorem value? (hg : Grows f g) {v : ValueId} {x : Value} (hx : f.value? v = some x) : g.value? v = some x := by
  have hx' : f.values.toList[v.index]? = some x := by simpa [Function.value?] using hx
  have := getElem?_of_prefix hg.values hx'
  simpa [Function.value?] using this

theorem instruction? (hg : Grows f g) {i : InstructionId} {x : Instruction} (hx : f.instruction? i = some x) :
    g.instruction? i = some x := by
  have hx' : f.instructions.toList[i.index]? = some x := by simpa [Function.instruction?] using hx
  have := getElem?_of_prefix hg.instructions hx'
  simpa [Function.instruction?] using this

theorem instructions_size_le (hg : Grows f g) : f.instructions.size ≤ g.instructions.size := by
  simpa using hg.instructions.length_le

theorem values_size_le (hg : Grows f g) : f.values.size ≤ g.values.size := by
  simpa using hg.values.length_le

/-- A block that has its exit is left alone. -/
theorem closed_block (hg : Grows f g) {b : BlockId} {x : Block} (hx : f.block? b = some x) (he : x.exit.isSome) :
    g.block? b = some x := by
  obtain ⟨y, hy, hxy⟩ := hg.block hx
  rw [hy, hxy.closed he]

theorem operandType (hg : Grows f g) {v : ValueId} {ty : LoweredType} (h : f.operandType v = .ok ty) :
    g.operandType v = .ok ty := by
  unfold Function.operandType at h ⊢
  cases hv : f.value? v with
  | none => simp [hv] at h
  | some x =>
    rw [hv] at h
    rw [hg.value? hv]
    cases hx : x.ty with
    | none => simp [hx] at h
    | some t => simpa [hx] using h

end Grows

/-! ## Changes are growth -/

section Changes

variable {f : Function}

theorem grows_withValue (v : Value) : f.Grows (f.withValue v) :=
  ⟨rfl, rfl, rfl, rfl, rfl, rfl, by simp [withValue], List.prefix_refl _, List.prefix_refl _,
    fun hx => ⟨_, hx, .refl _⟩⟩

theorem grows_withLiteral (id : GlobalId) (v : Value) : f.Grows (f.withLiteral id v) :=
  ⟨rfl, rfl, rfl, rfl, rfl, rfl, by simp [withLiteral, withValue], List.prefix_refl _, List.prefix_refl _,
    fun hx => ⟨_, hx, .refl _⟩⟩

/-- A block of the function is where it was after one more has been made. -/
theorem block?_withLabel {b : BlockId} {x : Block} (hx : f.block? b = some x) : f.withLabel.block? b = some x := by
  have hlt : b.index < f.blocks.size := (Array.getElem?_eq_some_iff.1 hx).1
  have : f.withLabel.block? b = (f.blocks.push ⟨f.nextValue, #[], none⟩)[b.index]? := rfl
  rw [this, Array.getElem?_push_lt hlt]
  exact (Array.getElem?_eq_getElem hlt).symm.trans hx

theorem grows_withLabel : f.Grows f.withLabel :=
  ⟨rfl, rfl, rfl, rfl, rfl, rfl, by simp [withLabel], List.prefix_refl _, List.prefix_refl _,
    fun hx => ⟨_, block?_withLabel hx, .refl _⟩⟩

theorem grows_withInstruction (operation : Operation) (ty : Option LoweredType) :
    f.Grows (f.withInstruction operation ty) := by
  cases ty with
  | none =>
    exact ⟨rfl, rfl, rfl, rfl, rfl, rfl, List.prefix_refl _, by simp, List.prefix_refl _,
      fun hx => ⟨_, hx, .refl _⟩⟩
  | some ty =>
    exact ⟨rfl, rfl, rfl, rfl, rfl, rfl, by simp [withInstruction], by simp, List.prefix_refl _,
      fun hx => ⟨_, hx, .refl _⟩⟩

theorem block?_put_self {b : BlockId} {x y : Block} (hx : f.block? b = some x) : (f.put b y).block? b = some y := by
  have hlt : b.index < f.blocks.size := (Array.getElem?_eq_some_iff.1 hx).1
  simp [block?, put, hlt]

theorem block?_put_of_ne {b c : BlockId} (y : Block) (hne : c ≠ b) : (f.put b y).block? c = f.block? c := by
  have : b.index ≠ c.index := fun h => hne (by cases b; cases c; simp_all)
  simp [block?, put, this]

theorem grows_put {b : BlockId} {x y : Block} (hx : f.block? b = some x) (hxy : x.Grows y) : f.Grows (f.put b y) := by
  refine ⟨rfl, rfl, rfl, rfl, rfl, rfl, List.prefix_refl _, List.prefix_refl _, List.prefix_refl _, ?_⟩
  intro c z hz
  by_cases hcb : c = b
  · subst hcb
    rw [hx] at hz
    cases hz
    exact ⟨y, block?_put_self hx, hxy⟩
  · exact ⟨z, by rw [block?_put_of_ne y hcb, hz], .refl z⟩

theorem grows_withEmitted {b : BlockId} {x : Block} (hx : f.block? b = some x) (hopen : x.exit = none)
    (operation : Operation) (ty : Option LoweredType) : f.Grows (f.withEmitted b x operation ty) :=
  (grows_withInstruction operation ty).trans
    (grows_put (by rw [block?_withInstruction, hx]) (.push hopen _))

theorem grows_withExit {b : BlockId} {x : Block} (hx : f.block? b = some x) (hopen : x.exit = none) (exit : Exit) :
    f.Grows (f.withExit b x exit) :=
  grows_put hx (.leave hopen _)

theorem grows_withReturn {b : BlockId} {x : Block} (hx : f.block? b = some x) (hopen : x.exit = none)
    (value : Option ValueId) : f.Grows (f.withReturn b x value) :=
  (grows_withInstruction _ none).trans (grows_withExit (by rw [block?_withInstruction, hx]) hopen _)

theorem blockIds_place {l : Array BlockId} (hl : f.layout = some l) (b : BlockId) :
    (f.place b).blockIds = f.blockIds ++ [b] := by
  simp [blockIds, place, hl]

theorem grows_place (b : BlockId) : f.Grows (f.place b) := by
  refine ⟨rfl, rfl, rfl, rfl, rfl, ?_, List.prefix_refl _, List.prefix_refl _, ?_, fun hx => ⟨_, hx, .refl _⟩⟩
  · simp [isDeclaration, place]
  · cases hl : f.layout with
    | none => simp [blockIds, place, hl]
    | some l => rw [blockIds_place hl]; exact List.prefix_append _ _

end Changes

end Function

end BlockForm
