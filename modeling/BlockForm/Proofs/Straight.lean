import BlockForm.Proofs.ByValue

/-!
# BlockForm.Proofs.Straight — steps that stay in the current block

Most of lowering works in one block: it makes values, interns types and strings, and adds instructions at the end of
the current block.  `LoweringState.Inside s s'` says what such steps leave alone: the layout, the exits, every other
block, the scopes and where the function returns.  `Lowering.Straight x` says that every successful run of `x` is of
this kind, from whatever state it starts; there is one rule for each way to put steps together and one for each helper.
-/

namespace BlockForm

open Action

/-- The exit of a block, if it has one. -/
def Function.exit? (f : Function) (b : BlockId) : Option Exit := (f.block? b).bind Block.exit

namespace Function

variable {f g : Function} {b : BlockId} {e : Exit}

theorem IsOpen.exit? (h : f.IsOpen b) : f.exit? b = none := by
  obtain ⟨x, hx, he⟩ := h
  rw [Function.exit?, hx]
  exact he

theorem isClosed_iff_exit? : f.IsClosed b ↔ ∃ e, f.exit? b = some e := by
  unfold IsClosed exit?
  cases f.block? b with
  | none => simp
  | some x => simp [Option.isSome_iff_exists]

/-- A block that has its exit keeps it. -/
theorem Grows.exit? (hg : f.Grows g) (h : f.exit? b = some e) : g.exit? b = some e := by
  obtain ⟨x, hx, he⟩ := Option.bind_eq_some_iff.1 h
  rw [Function.exit?, hg.closed_block hx (by rw [he]; rfl)]
  exact he

theorem IsClosed.grow (h : f.IsClosed b) (hg : f.Grows g) : g.IsClosed b := by
  obtain ⟨e, he⟩ := isClosed_iff_exit?.1 h
  exact isClosed_iff_exit?.2 ⟨e, hg.exit? he⟩

/-- No block is lost. -/
theorem Grows.blocks_size_le (hg : f.Grows g) : f.blocks.size ≤ g.blocks.size := by
  rcases Nat.eq_zero_or_pos f.blocks.size with h | h
  · omega
  · have hlast : f.blocks.size - 1 < f.blocks.size := by omega
    obtain ⟨y, hy, -⟩ := hg.block (b := ⟨f.blocks.size - 1⟩) (Array.getElem?_eq_getElem hlast)
    have hlt : f.blocks.size - 1 < g.blocks.size := block?_lt hy
    omega

end Function

/-- Work in the current block has led from `s` to `s'`. -/
structure LoweringState.Inside (s s' : LoweringState) : Prop where
  grows : s.function.Grows s'.function
  current : s'.current = s.current
  size : s'.function.blocks.size = s.function.blocks.size
  blockIds : s'.function.blockIds = s.function.blockIds
  others : ∀ {b}, b ≠ s.current → s'.function.block? b = s.function.block? b
  exits : ∀ b, s'.function.exit? b = s.function.exit? b
  returnSlot : s'.function.returnSlot = s.function.returnSlot
  endBlock : s'.endBlock = s.endBlock
  scopes : s'.scopes = s.scopes

namespace LoweringState.Inside

variable {s t s' : LoweringState}

theorem refl (s : LoweringState) : Inside s s :=
  ⟨.refl _, rfl, rfl, rfl, fun _ => rfl, fun _ => rfl, rfl, rfl, rfl⟩

theorem trans (h₁ : Inside s t) (h₂ : Inside t s') : Inside s s' where
  grows := h₁.grows.trans h₂.grows
  current := h₂.current.trans h₁.current
  size := h₂.size.trans h₁.size
  blockIds := h₂.blockIds.trans h₁.blockIds
  others hb := (h₂.others (h₁.current ▸ hb)).trans (h₁.others hb)
  exits b := (h₂.exits b).trans (h₁.exits b)
  returnSlot := h₂.returnSlot.trans h₁.returnSlot
  endBlock := h₂.endBlock.trans h₁.endBlock
  scopes := h₂.scopes.trans h₁.scopes

/-- The unit changes, and the function but for its blocks. -/
theorem of_blocks {u : CompilationUnit} {f : Function} (hg : s.function.Grows f)
    (hb : f.blocks = s.function.blocks) (hl : f.blockIds = s.function.blockIds)
    (hr : f.returnSlot = s.function.returnSlot) : Inside s { s with unit := u, function := f } := by
  have hblock : ∀ b, f.block? b = s.function.block? b := fun b => by rw [Function.block?, hb]; rfl
  refine ⟨hg, rfl, by rw [hb], hl, fun _ => hblock _, fun b => ?_, hr, rfl, rfl⟩
  rw [Function.exit?, hblock]
  rfl

/-- An open block stays open. -/
theorem isOpen (h : Inside s s') {b : BlockId} (hb : s.function.IsOpen b) : s'.function.IsOpen b := by
  obtain ⟨x, hx, hopen⟩ := hb
  obtain ⟨y, hy, -⟩ := h.grows.block hx
  refine ⟨y, hy, ?_⟩
  have he := h.exits b
  rw [Function.exit?, Function.exit?, hy, hx] at he
  exact he.trans hopen

end LoweringState.Inside

namespace Lowering

/-- Every successful run of the step works in the current block. -/
def Straight {α : Type} (x : Lowering α) : Prop := ∀ s a s', Gives x s a s' → s.Inside s'

namespace Straight

variable {α β : Type}

/-! ## Steps -/

theorem pure (a : α) : Straight (Pure.pure a) := by
  intro s b s' h
  obtain ⟨-, rfl⟩ := gives_pure.1 h
  exact .refl s

theorem bind {x : Lowering α} {k : α → Lowering β} (hx : Straight x) (hk : ∀ a, Straight (k a)) :
    Straight (x >>= k) := by
  intro s b s' h
  obtain ⟨a, t, h₁, h₂⟩ := gives_bind.1 h
  exact (hx s a t h₁).trans (hk a t b s' h₂)

theorem get_bind {k : LoweringState → Lowering β} (hk : ∀ s, Straight (k s)) : Straight (Action.get >>= k) :=
  fun s b s' h => hk s s b s' (gives_get_bind.1 h)

theorem fault (f : Fault) : Straight (Action.fault f : Lowering α) :=
  fun _ _ _ h => absurd h not_gives_fault

theorem need (o : Option α) (f : Fault) : Straight (Action.need o f : Lowering α) := by
  intro s a s' h
  obtain ⟨-, rfl⟩ := gives_need.1 h
  exact .refl s

theorem typeOf (v : ValueId) : Straight (typeOf v) := by
  intro s ty s' h
  obtain ⟨-, rfl⟩ := gives_typeOf.1 h
  exact .refl s

theorem slotOf (name : String) : Straight (slotOf name) := by
  intro s v s' h
  obtain ⟨-, rfl⟩ := gives_slotOf.1 h
  exact .refl s

theorem lowerType (ty : Ty) : Straight (lowerType ty) := by
  intro s t s' h
  obtain ⟨u, -, rfl⟩ := gives_inUnit.1 h
  exact .of_blocks (.refl _) rfl rfl rfl

theorem constant (c : Constant) (e : Elementary) : Straight (constant c e) := by
  intro s v s' h
  obtain ⟨f, hf, rfl⟩ := gives_inFunction.1 h
  obtain ⟨-, -, rfl⟩ := Function.constant_gives.1 hf
  exact .of_blocks (Function.grows_withValue _) rfl rfl rfl

theorem lowerLiteral (content : String) : Straight (lowerLiteral content) := by
  intro s v s' h
  obtain ⟨id, l, u, f, -, -, hf, rfl⟩ := lowerLiteral_gives h
  rcases Function.literal_gives hf with ⟨-, rfl⟩ | ⟨-, -, -, rfl⟩
  · exact .of_blocks (.refl _) rfl rfl rfl
  · exact .of_blocks (Function.grows_withLiteral _ _) rfl rfl rfl

theorem emit (op : Operation) : Straight (emit op) := by
  intro s v s' h
  obtain ⟨x, ty, hx, hopen, -, -, rfl⟩ := emit_gives h
  have hblock := Function.block?_withEmitted hx op ty
  refine ⟨Function.grows_withEmitted hx hopen op ty, rfl, ?_, ?_, fun hb => ?_, fun b => ?_, ?_, rfl, rfl⟩
  · cases ty <;> simp [Function.withEmitted, Function.put, Function.withInstruction]
  · cases ty <;> rfl
  · rw [hblock, if_neg hb]
  · rw [Function.exit?, hblock]
    split
    · next hb =>
      rw [Function.exit?, hb, hx]
      rfl
    · rfl
  · cases ty <;> rfl

/-! ## Helpers -/

theorem coerce (v : ValueId) (target : LoweredType) : Straight (coerce v target) := by
  refine (typeOf v).bind fun ty => ?_
  split
  · exact pure v
  · refine get_bind fun s => ?_
    split
    · exact constant _ _
    · split
      · exact emit _
      · exact fault _

theorem store (slot v : ValueId) : Straight (store slot v) := by
  refine (typeOf slot).bind fun slotTy => (typeOf v).bind fun ty => ?_
  dsimp only
  split
  · exact (emit _).bind fun _ => (emit _).bind fun _ => pure ()
  · exact (coerce v _).bind fun _ => (emit _).bind fun _ => pure ()

theorem load (slot : ValueId) : Straight (load slot) := by
  refine (typeOf slot).bind fun ty => ?_
  split
  · exact pure slot
  · exact emit _

theorem memberIndex (index : Nat) : Straight (memberIndex index) := by
  unfold Lowering.memberIndex
  split
  · exact pure index
  · exact fault _

theorem enterPath (path : List Nat) : ∀ memory, Straight (enterPath memory path) := by
  induction path with
  | nil => exact pure
  | cons index path ih =>
    intro memory
    refine bind ?_ ih
    exact (constant _ _).bind fun _ => (emit _).bind fun _ => (memberIndex index).bind fun _ => emit _

theorem prepare (memory : ValueId) (plan : FillPlan) : Straight (prepare memory plan) := by
  refine (enterPath plan.path memory).bind fun payload => ?_
  cases plan.goal with
  | impossible f => exact fault f
  | whole | memberwise => exact pure _

theorem storeArgument (site : FillSite) (index : Nat) (v : ValueId) : Straight (storeArgument site index v) := by
  unfold Lowering.storeArgument
  split
  · exact (memberIndex index).bind fun _ => (emit _).bind fun slot => store slot v
  · exact store _ v

theorem testMember (discriminant : ValueId) (index : Nat) : Straight (testMember discriminant index) :=
  (constant _ _).bind fun _ => emit _

theorem lowerConstant (c : Constant) (ty : Ty) : Straight (lowerConstant c ty) := by
  unfold Lowering.lowerConstant
  split <;> exact constant _ _

theorem lowerOperator (op : BinaryOperator) (ty : Ty) (lhs rhs : ValueId) :
    Straight (lowerOperator op ty lhs rhs) := by
  -- Both operands are made to fit one type and are then joined.
  have joined : ∀ (target : LoweredType) (join : ValueId → ValueId → Operation), Straight (do
      let left ← Lowering.coerce lhs target
      let right ← Lowering.coerce rhs target
      Lowering.emit (join left right)) := fun target join =>
    (coerce lhs target).bind fun _ => (coerce rhs target).bind fun _ => emit _
  unfold Lowering.lowerOperator
  cases op.class with
  | arith op => exact (lowerType ty).bind fun target => joined target (.arith op)
  | cmp op => exact (typeOf lhs).bind fun _ => (typeOf rhs).bind fun _ => get_bind fun _ => joined _ (.cmp op)
  | logic op => exact joined _ (.logic op)

theorem finishCall (name : String) (args : List ValueId) : Straight (finishCall name args) := by
  refine (emit _).bind fun result => ?_
  split
  · exact pure result
  · refine (typeOf result).bind fun ty => ?_
    split
    · exact (emit _).bind fun slot => (store slot result).bind fun _ => pure slot
    · exact pure result

theorem resultSlot (ty : Ty) : Straight (resultSlot ty) := by
  refine (lowerType ty).bind fun lowered => ?_
  split
  · exact pure none
  · exact (emit _).bind fun slot => pure (some slot)

end Straight

end Lowering

end BlockForm
