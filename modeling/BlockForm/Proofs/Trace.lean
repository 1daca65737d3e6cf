import Mathlib.Data.Set.Basic
import Mathlib.Logic.Function.Basic
import Mathlib.Logic.Relation
import BlockForm.Proofs.Typing

/-!
# BlockForm.Proofs.Trace — lowering as a sequence of small steps

A `Site` is a state of lowering that remembers, for each block, the instructions that every path into the block
has passed: those known where the block was made.  `Step` lists all that lowering ever does to such a site, with
what it has made sure of by then; `Trace` is a sequence of steps.  An invariant of lowering is proved by one case
for each step, here for the growth of the function and the unit and for `Function.Coherent`.
-/

namespace BlockForm

open Action

/-- The constant is one of the type: an integer within its range, a floating point number of a floating point
type, a truth value. -/
def Constant.Fits (c : Constant) (e : Elementary) : Prop := c.retyped? e = some c

namespace Function

/-- The instructions of a block. -/
def held (f : Function) (b : BlockId) : Set InstructionId :=
  { i | ∃ x, f.block? b = some x ∧ i ∈ x.instructions }

/-- The block is made and not placed. -/
def Pending (f : Function) (b : BlockId) : Prop := b.index < f.blocks.size ∧ b ∉ f.blockIds

/-- The block can take more. -/
def IsOpen (f : Function) (b : BlockId) : Prop := ∃ x, f.block? b = some x ∧ x.exit = none

/-- The block has its exit. -/
def IsClosed (f : Function) (b : BlockId) : Prop := ∃ x, f.block? b = some x ∧ x.exit.isSome

theorem IsOpen.not_isClosed {f : Function} {b : BlockId} (h : f.IsOpen b) : ¬ f.IsClosed b := by
  obtain ⟨x, hx, hopen⟩ := h
  rintro ⟨y, hy, hclosed⟩
  obtain rfl := Option.some.inj (hx.symm.trans hy)
  simp [hopen] at hclosed

theorem Grows.held_subset {f g : Function} (h : f.Grows g) (b : BlockId) : f.held b ⊆ g.held b := by
  rintro i ⟨x, hx, hi⟩
  obtain ⟨y, hy, hxy⟩ := h.block hx
  refine ⟨y, hy, ?_⟩
  have := hxy.instructions.subset (by simpa using hi)
  simpa using this

end Function

/-- A state of lowering, with the instructions that every path into a block has passed. -/
structure Site where
  state : LoweringState
  known : BlockId → Set InstructionId

namespace Site

/-- The instructions that every path to the place of the next instruction has passed. -/
def here (g : Site) : Set InstructionId :=
  g.known g.state.current ∪ g.state.function.held g.state.current

/-- The value can be read by the next instruction: if it is a result, it has been computed. -/
def Usable (g : Site) (v : ValueId) : Prop :=
  ∃ x, g.state.function.value? v = some x ∧ ∀ i, x.kind = .result i → i ∈ g.here

/-- The block is a place to go to: it is not placed yet, and what it relies on has been passed. -/
def CanReach (g : Site) (b : BlockId) : Prop := g.state.function.Pending b ∧ g.known b ⊆ g.here

/-- All that lowering does, one thing at a time. -/
inductive Step : Site → Site → Prop where
  /-- A type is lowered. -/
  | lowerType {s : LoweringState} {k : BlockId → Set InstructionId} {ty : Ty} {t : LoweredType}
      {u : CompilationUnit} (h : Gives (CompilationUnit.lowerType ty) s.unit t u) :
      Step ⟨s, k⟩ ⟨{ s with unit := u }, k⟩
  /-- A string is interned. -/
  | intern {s : LoweringState} {k : BlockId → Set InstructionId} {content : String} {id : GlobalId}
      {u : CompilationUnit} (h : Gives (CompilationUnit.internLiteral content) s.unit id u) :
      Step ⟨s, k⟩ ⟨{ s with unit := u }, k⟩
  /-- A constant is made. -/
  | constant {s : LoweringState} {k : BlockId → Set InstructionId} {c : Constant} {e : Elementary}
      (h : c.Fits e) :
      Step ⟨s, k⟩ ⟨{ s with function := s.function.withValue ⟨.constant c, some (.elementary e), c.text⟩ }, k⟩
  /-- The value of a literal of the unit is made. -/
  | literal {s : LoweringState} {k : BlockId → Set InstructionId} {id : GlobalId} {l : Global}
      (h : s.unit.globalAt? id = some l) (hnew : s.function.literals.lookup id = none) :
      Step ⟨s, k⟩ ⟨{ s with function := s.function.withLiteral id ⟨.literal id l.content, some l.ty, l.name⟩ }, k⟩
  /-- An instruction is added to the current block. -/
  | emit {s : LoweringState} {k : BlockId → Set InstructionId} {op : Operation} {ty : Option LoweredType}
      {x : Block} (hop : op.isTerminator = false) (hx : s.function.block? s.current = some x)
      (hopen : x.exit = none) (hty : s.function.Types s.unit op ty)
      (huse : ∀ v ∈ op.operands, Usable ⟨s, k⟩ v) (hknow : ∀ t n, op = .alloca t n → s.unit.Knows t) :
      Step ⟨s, k⟩ ⟨{ s with function := s.function.withEmitted s.current x op ty }, k⟩
  /-- A block is made, to be gone to from here on. -/
  | newBlock {s : LoweringState} {k : BlockId → Set InstructionId} :
      Step ⟨s, k⟩ ⟨{ s with function := s.function.withLabel },
        Function.update k s.function.nextBlock (here ⟨s, k⟩)⟩
  /-- The current block gets its exit, which leads to blocks not placed yet. -/
  | leave {s : LoweringState} {k : BlockId → Set InstructionId} {e : Exit} {x : Block}
      (hx : s.function.block? s.current = some x) (hopen : x.exit = none) (hgive : ∀ id, e ≠ .give id)
      (hto : ∀ t ∈ e.targets, ∃ b y, s.function.block? b = some y ∧ y.label = t ∧ CanReach ⟨s, k⟩ b)
      (hcond : ∀ c ∈ e.conditions, Usable ⟨s, k⟩ c ∧ s.function.valueType? c = some (.elementary .bool)) :
      Step ⟨s, k⟩ ⟨{ s with function := s.function.withExit s.current x e }, k⟩
  /-- A block is placed after the current one, which has its exit, and becomes the current one. -/
  | start {s : LoweringState} {k : BlockId → Set InstructionId} {b : BlockId} {l : Array BlockId}
      (hl : s.function.layout = some l) (hb : s.function.Pending b) (hclosed : s.function.IsClosed s.current) :
      Step ⟨s, k⟩ ⟨{ s with function := s.function.place b, current := b }, k⟩
  /-- The end block returns. -/
  | give {s : LoweringState} {k : BlockId → Set InstructionId} {value : Option ValueId} {x : Block}
      (hend : s.current = s.endBlock) (hx : s.function.block? s.current = some x) (hopen : x.exit = none)
      (hty : s.function.Types s.unit (.give value) none) (huse : ∀ v ∈ value, Usable ⟨s, k⟩ v) :
      Step ⟨s, k⟩ ⟨{ s with function := s.function.withReturn s.current x value }, k⟩
  /-- Names come into scope or go out of it. -/
  | scopes {s : LoweringState} {k : BlockId → Set InstructionId} (scopes : List Scope) :
      Step ⟨s, k⟩ ⟨{ s with scopes := scopes }, k⟩

/-- Any number of steps. -/
abbrev Trace : Site → Site → Prop := Relation.ReflTransGen Step

variable {g g' g'' : Site}

theorem Trace.trans (h₁ : Trace g g') (h₂ : Trace g' g'') : Trace g g'' := Relation.ReflTransGen.trans h₁ h₂

/-! ## Growth -/

theorem Step.function_grows (h : Step g g') : g.state.function.Grows g'.state.function := by
  cases h with
  | lowerType | intern | scopes => exact .refl _
  | constant => exact Function.grows_withValue _
  | literal => exact Function.grows_withLiteral _ _
  | emit hop hx hopen => exact Function.grows_withEmitted hx hopen _ _
  | newBlock => exact Function.grows_withLabel
  | leave hx hopen => exact Function.grows_withExit hx hopen _
  | start => exact Function.grows_place _
  | give hend hx hopen => exact Function.grows_withReturn hx hopen _

theorem Step.unit_extends (h : Step g g') : g.state.unit.Extends g'.state.unit := by
  cases h with
  | lowerType h => exact CompilationUnit.extends_of_lowerType h
  | intern h => exact CompilationUnit.extends_of_internLiteral h
  | _ => exact .refl _

theorem Step.endBlock_eq (h : Step g g') : g'.state.endBlock = g.state.endBlock := by
  cases h <;> rfl

theorem Step.returnSlot_eq (h : Step g g') : g'.state.function.returnSlot = g.state.function.returnSlot := by
  cases h with
  | @emit s k op ty => cases ty <;> rfl
  | _ => rfl

/-- What a block relies on is settled when it is made. -/
theorem Step.known_eq (h : Step g g') {b : BlockId} (hb : b.index < g.state.function.blocks.size) :
    g'.known b = g.known b := by
  cases h with
  | @newBlock s k =>
    have : b ≠ s.function.nextBlock := by rintro rfl; exact Nat.lt_irrefl _ hb
    simp [this]
  | _ => rfl

theorem Trace.function_grows (h : Trace g g') : g.state.function.Grows g'.state.function := by
  induction h with
  | refl => exact .refl _
  | tail _ hs ih => exact ih.trans hs.function_grows

theorem Trace.unit_extends (h : Trace g g') : g.state.unit.Extends g'.state.unit := by
  induction h with
  | refl => exact .refl _
  | tail _ hs ih => exact ih.trans hs.unit_extends

theorem Trace.endBlock_eq (h : Trace g g') : g'.state.endBlock = g.state.endBlock := by
  induction h with
  | refl => rfl
  | tail _ hs ih => exact hs.endBlock_eq.trans ih

theorem Trace.returnSlot_eq (h : Trace g g') : g'.state.function.returnSlot = g.state.function.returnSlot := by
  induction h with
  | refl => rfl
  | tail _ hs ih => exact hs.returnSlot_eq.trans ih

theorem Trace.known_eq (h : Trace g g') {b : BlockId} (hb : b.index < g.state.function.blocks.size) :
    g'.known b = g.known b := by
  induction h with
  | refl => rfl
  | @tail g₁ g₂ ht hs ih =>
    obtain ⟨x, hx⟩ := Function.exists_block? hb
    obtain ⟨y, hy, -⟩ := (Trace.function_grows ht).block hx
    exact (hs.known_eq (Function.block?_lt hy)).trans ih

/-! ## Coherence -/

/-- The operands of a typed operation are values with a type. -/
theorem value?_of_types {f : Function} {u : CompilationUnit} {op : Operation} {t : Option LoweredType}
    (h : f.Types u op t) : ∀ v ∈ op.operands, ∃ x, f.value? v = some x ∧ x.ty.isSome := by
  intro v hv
  obtain ⟨ty, hty⟩ := h.operand v hv
  obtain ⟨x, hx, ht⟩ := Option.bind_eq_some_iff.1 hty
  exact ⟨x, hx, by simp [ht]⟩

theorem Step.coherent (h : Step g g') (hc : g.state.function.Coherent) : g'.state.function.Coherent := by
  cases h with
  | lowerType | intern | scopes => exact hc
  | constant => exact hc.withValue (by simp [Value.IsOperand]) (by simp)
  | @literal s k id l =>
    have hv : (s.function.withValue ⟨.literal id l.content, some l.ty, l.name⟩).Coherent :=
      hc.withValue (by simp [Value.IsOperand]) (by simp)
    exact hv.congr rfl rfl rfl
  | @emit s k op ty x hop hx hopen hty huse =>
    have hi : (s.function.withInstruction op ty).Coherent := hc.withInstruction (value?_of_types hty)
    refine hi.put (x := x) (by rw [Function.block?_withInstruction, hx]) rfl ?_
    intro e he
    simp [hopen] at he
  | newBlock => exact hc.withLabel
  | @leave s k e x hx hopen hgive hto hcond =>
    refine hc.put hx rfl ?_
    rintro _ ⟨⟩ t ht
    obtain ⟨b, y, hy, hl, -⟩ := hto t ht
    exact ⟨b, hc.label_iff.2 ⟨y, hy, hl⟩⟩
  | start => exact hc.congr rfl rfl rfl
  | @give s k value x hend hx hopen hty huse =>
    have hi : (s.function.withInstruction (.give value) none).Coherent :=
      hc.withInstruction (value?_of_types hty)
    refine hi.put (x := x) (by rw [Function.block?_withInstruction, hx]) rfl ?_
    rintro _ ⟨⟩ t ht
    cases ht

end Site

end BlockForm
