import BlockForm.Proofs.ControlFlow
import BlockForm.Proofs.Primitives
import BlockForm.Proofs.Sizes

/-!
# BlockForm.Proofs.ByValue — arguments are passed by value

A composite is passed by its address.  A function reads that address once, to copy the object into a slot of its own,
and from then on works on the copy; an elementary argument is stored in such a slot likewise.

* `Made.keeps`: steps that are handed values of which `own` holds, and find no others in the state, make no operand of a
  value of which it does not hold, and give none.  With "not an argument" for `own` this is so of everything that is
  lowered after the arguments have been copied.
* `spillArguments_copies`: copying makes each argument an operand once.
* `Module.lower_copiesArguments`: so does lowering as a whole, and nothing is stored at an address that was passed, nor
  at one derived from it.
-/

namespace BlockForm

open Action

/-- The address an operation stores at. -/
def Operation.storesAt? : Operation → Option ValueId
  | write memory _ => some memory
  | setUnionIdx target _ => some target
  | _ => none

theorem Operation.mem_operands_of_storesAt? {op : Operation} {v : ValueId} (h : op.storesAt? = some v) :
    v ∈ op.operands := by
  cases op <;> simp_all [storesAt?, operands]

/-- The values that the exit of a block mentions. -/
def Block.exitOperands (x : Block) : List ValueId := x.exit.elim [] fun e => e.conditions ++ e.targets

theorem Block.exitOperands_of_open {x : Block} (h : x.exit = none) : x.exitOperands = [] := by
  simp [exitOperands, h]

namespace Function

variable {f g h : Function} {own : ValueId → Prop} {v : ValueId}

/-- The operands of the instructions, each as often as it occurs. -/
def reads (f : Function) : List ValueId := f.instructions.toList.flatMap fun ins => ins.operation.operands

/-- The operands of the instructions and the exits, each as often as it occurs. -/
def operands (f : Function) : List ValueId := f.reads ++ f.blocks.toList.flatMap Block.exitOperands

/-! ## Values that steps may get hold of -/

/-- The values that a step can find in the function, or make, are own ones. -/
structure Owns (f : Function) (own : ValueId → Prop) : Prop where
  absent : own nilValue
  fresh : ∀ {v : ValueId}, f.values.size ≤ v.index → own v
  label : ∀ {v b}, f.labelTarget? v = some b → own v
  literal : ∀ p ∈ f.literals, own p.2
  returnSlot : ∀ {slot}, f.returnSlot = some slot → own slot

theorem Owns.nextValue (hf : f.Owns own) : own f.nextValue := hf.fresh (Nat.le_refl _)

theorem Owns.resultValue (hf : f.Owns own) (ty : Option LoweredType) : own (f.resultValue ty) := by
  cases ty with
  | none => exact hf.absent
  | some ty => exact hf.nextValue

/-- What a function grows by is new. -/
theorem Owns.grow (hf : f.Owns own) (hg : f.Grows g)
    (hlit : ∀ p ∈ g.literals, p ∈ f.literals ∨ p.2 = f.nextValue) (hslot : g.returnSlot = f.returnSlot) :
    g.Owns own := by
  have hsize := hg.values_size_le
  refine ⟨hf.absent, fun hv => hf.fresh (hsize.trans hv), ?_, ?_, fun h => hf.returnSlot (hslot ▸ h)⟩
  · intro v b hv
    by_cases hlt : v.index < f.values.size
    · obtain ⟨x, hx⟩ : ∃ x, f.value? v = some x := ⟨_, Array.getElem?_eq_getElem hlt⟩
      rw [labelTarget?, hg.value? hx] at hv
      exact hf.label (b := b) (by rw [labelTarget?, hx]; exact hv)
    · exact hf.fresh (Nat.le_of_not_lt hlt)
  · intro p hp
    rcases hlit p hp with hp | hp
    · exact hf.literal p hp
    · rw [hp]
      exact hf.nextValue

/-! ## Changes and the operands they add -/

/-- The instructions that `g` has more than `f` read the value `n` times, and its exits do not mention it. -/
structure Gains (v : ValueId) (n : Nat) (f g : Function) : Prop where
  reads : g.reads.count v = f.reads.count v + n
  exits : ∀ {b x}, g.block? b = some x → v ∈ x.exitOperands → ∃ c y, f.block? c = some y ∧ v ∈ y.exitOperands

namespace Gains

theorem refl (v : ValueId) (f : Function) : Gains v 0 f f := ⟨rfl, fun hx hv => ⟨_, _, hx, hv⟩⟩

theorem trans {m n : Nat} (h₁ : Gains v m f g) (h₂ : Gains v n g h) : Gains v (m + n) f h := by
  refine ⟨by rw [h₂.reads, h₁.reads, Nat.add_assoc], fun hx hv => ?_⟩
  obtain ⟨c, y, hy, hv'⟩ := h₂.exits hx hv
  exact h₁.exits hy hv'

/-- Only instructions and blocks mention values. -/
theorem of_eq (hi : g.instructions = f.instructions) (hb : g.blocks = f.blocks) : Gains v 0 f g :=
  ⟨by simp only [Function.reads, hi, Nat.add_zero], fun {b x} hx hv => ⟨b, x, by rw [block?, ← hb]; exact hx, hv⟩⟩

theorem withLabel (v : ValueId) (f : Function) : Gains v 0 f f.withLabel := by
  refine ⟨rfl, fun {b x} hx hv => ?_⟩
  rw [block?_withLabel_eq] at hx
  split at hx
  · cases hx
    cases hv
  · exact ⟨b, x, hx, hv⟩

/-- One block is changed. -/
theorem of_block {n : Nat} {b : BlockId} {y : Block} (hr : g.reads.count v = f.reads.count v + n)
    (hblock : ∀ c, g.block? c = if c = b then some y else f.block? c) (hy : v ∉ y.exitOperands) : Gains v n f g := by
  refine ⟨hr, fun {c x} hx hv => ?_⟩
  rw [hblock] at hx
  split at hx
  · cases hx
    exact absurd hv hy
  · exact ⟨c, x, hx, hv⟩

end Gains

theorem count_reads_of_push {ins : Instruction} (h : g.instructions = f.instructions.push ins) (v : ValueId) :
    g.reads.count v = f.reads.count v + ins.operation.operands.count v := by
  simp [reads, h]

end Function

/-- The values that a step can find in the state, or make, are own ones. -/
structure LoweringState.Owns (s : LoweringState) (own : ValueId → Prop) : Prop where
  function : s.function.Owns own
  scopes : ∀ scope ∈ s.scopes, ∀ p ∈ scope, own p.2

/-- A change of the function alone, the current block aside. -/
theorem LoweringState.Owns.grow {s : LoweringState} {own : ValueId → Prop} (hs : s.Owns own) {g : Function}
    (hg : s.function.Grows g) (hlit : g.literals = s.function.literals)
    (hslot : g.returnSlot = s.function.returnSlot) (b : BlockId) :
    LoweringState.Owns { s with function := g, current := b } own :=
  ⟨hs.function.grow hg (fun _ hp => Or.inl (hlit ▸ hp)) hslot, hs.scopes⟩

namespace Lowering

variable {own : ValueId → Prop} {s s' : LoweringState}

/-- The checks an instruction has passed, and the change it makes. -/
theorem emit_gives {op : Operation} {r : ValueId} (h : Gives (emit op) s r s') :
    ∃ x ty, s.function.block? s.current = some x ∧ x.exit = none ∧ s.function.Types s.unit op ty ∧
      r = s.function.resultValue ty ∧ s' = { s with function := s.function.withEmitted s.current x op ty } := by
  obtain ⟨f', hf', rfl⟩ := gives_emit.1 h
  obtain ⟨x, ty, -, hx, hopen, hty, -, -, rfl, rfl⟩ := Function.pushInstruction_gives hf'
  exact ⟨x, ty, hx, hopen, Function.resultType_eq_ok_iff.1 hty, rfl, rfl⟩

/-- An instruction finds nothing new in the state, whatever it reads. -/
theorem owns_of_emit {op : Operation} {r : ValueId} (hs : s.Owns own) (h : Gives (emit op) s r s') :
    own r ∧ s'.Owns own := by
  obtain ⟨x, ty, hx, hopen, -, rfl, rfl⟩ := emit_gives h
  refine ⟨hs.function.resultValue ty, hs.grow (Function.grows_withEmitted hx hopen op ty) ?_ ?_ _⟩
  · cases ty <;> rfl
  · cases ty <;> rfl

theorem gains_of_emit {op : Operation} {r : ValueId} (h : Gives (emit op) s r s') (v : ValueId) :
    s.function.Gains v (op.operands.count v) s'.function := by
  obtain ⟨x, ty, hx, hopen, -, -, rfl⟩ := emit_gives h
  refine .of_block (Function.count_reads_of_push (Function.instructions_withInstruction op ty) v)
    (Function.block?_withEmitted hx op ty) fun hv => ?_
  have hold : v ∈ x.exitOperands := hv
  rw [Block.exitOperands_of_open hopen] at hold
  cases hold

/-- A name is given an own slot. -/
theorem owns_of_define {name : String} {slot : ValueId} (hs : s.Owns own) (hslot : own slot) {a : Unit}
    (h : Gives (define name slot) s a s') : s'.Owns own ∧ ∃ scopes, s' = { s with scopes := scopes } := by
  obtain rfl := gives_modify.1 h
  split
  · exact ⟨hs, _, rfl⟩
  · next scope rest hscopes =>
    refine ⟨⟨hs.function, fun t ht p hp => ?_⟩, _, rfl⟩
    have hold := hs.scopes
    rw [hscopes, List.forall_mem_cons] at hold
    rcases List.mem_cons.1 ht with rfl | ht
    · rcases List.mem_cons.1 hp with rfl | hp
      · exact hslot
      · exact hold.1 p hp
    · exact hold.2 t ht p hp

/-- **What is made of primitive steps keeps to own values**: it finds and gives no others, and makes operands of no
others. -/
theorem Made.keeps {α : Type} {x : Lowering α} {P : α → Prop} (h : Made own x P) :
    ∀ {s a s'}, s.Owns own → Gives x s a s' →
      P a ∧ s'.Owns own ∧ ∀ {v}, ¬ own v → s.function.Gains v 0 s'.function := by
  -- One case for each step.  Values are looked up by `slotOf`, `lowerLiteral`, `get` and made by `constant`, `newBlock`
  -- and `emit`; operands are made by `emit`, `leave` and `setReturn` only.
  induction h with
  | pure hP =>
    intro s a s' hs h
    obtain ⟨rfl, rfl⟩ := gives_pure.1 h
    exact ⟨hP, hs, fun _ => .refl _ _⟩
  | absent =>
    intro s a s' hs h
    obtain ⟨rfl, rfl⟩ := gives_pure.1 h
    exact ⟨hs.function.absent, hs, fun _ => .refl _ _⟩
  | bind _ _ ihx ihk =>
    intro s b s' hs h
    obtain ⟨a, s₁, h₁, h₂⟩ := gives_bind.1 h
    obtain ⟨ha, hs₁, hv₁⟩ := ihx hs h₁
    obtain ⟨hb, hs', hv'⟩ := ihk a ha hs₁ h₂
    exact ⟨hb, hs', fun hv => (hv₁ hv).trans (hv' hv)⟩
  | get =>
    intro s a s' hs h
    obtain ⟨rfl, rfl⟩ := gives_get.1 h
    exact ⟨fun _ => hs.function.returnSlot, hs, fun _ => .refl _ _⟩
  | fail e => exact fun _ h => absurd h not_gives_fail
  | fault f => exact fun _ h => absurd h not_gives_fault
  | report e =>
    intro s a s' hs h
    obtain rfl := gives_report.1 h
    exact ⟨trivial, hs, fun _ => .refl _ _⟩
  | inScope _ ih =>
    intro s a s' hs h
    obtain ⟨t, ht, rfl⟩ := gives_inScope.1 h
    have hinner : LoweringState.Owns { s with scopes := [] :: s.scopes } own := by
      refine ⟨hs.function, fun scope hm => ?_⟩
      rcases List.mem_cons.1 hm with rfl | hm
      · exact fun _ hp => absurd hp List.not_mem_nil
      · exact hs.scopes scope hm
    obtain ⟨ha, ht', hv⟩ := ih hinner ht
    have houter : ∀ scope ∈ t.scopes.tail, ∀ p ∈ scope, own p.2 := fun scope hm =>
      ht'.scopes scope (List.mem_of_mem_tail hm)
    exact ⟨ha, ⟨ht'.function, houter⟩, hv⟩
  | define hslot name =>
    intro s a s' hs h
    obtain ⟨hs', scopes, rfl⟩ := owns_of_define hs hslot h
    exact ⟨trivial, hs', fun _ => .refl _ _⟩
  | slotOf name =>
    intro s a s' hs h
    obtain ⟨hfound, rfl⟩ := gives_slotOf.1 h
    obtain ⟨scope, hscope, hl⟩ := List.exists_of_findSome?_eq_some hfound
    exact ⟨hs.scopes scope hscope _ (mem_of_lookup hl), hs, fun _ => .refl _ _⟩
  | lowerType ty =>
    intro s a s' hs h
    obtain ⟨u, -, rfl⟩ := gives_inUnit.1 h
    exact ⟨trivial, ⟨hs.function, hs.scopes⟩, fun _ => .refl _ _⟩
  | constant hfits =>
    intro s a s' hs h
    obtain ⟨f', hf', rfl⟩ := gives_inFunction.1 h
    obtain ⟨-, rfl, rfl⟩ := Function.constant_gives.1 hf'
    exact ⟨hs.function.nextValue, hs.grow (Function.grows_withValue _) rfl rfl _, fun _ => .of_eq rfl rfl⟩
  | lowerLiteral content =>
    intro s a s' hs h
    obtain ⟨id, l, u', f', -, -, hf', rfl⟩ := lowerLiteral_gives h
    rcases Function.literal_gives hf' with ⟨hfound, rfl⟩ | ⟨-, -, rfl, rfl⟩
    · exact ⟨hs.function.literal _ (mem_of_lookup hfound), ⟨hs.function, hs.scopes⟩, fun _ => .refl _ _⟩
    · refine ⟨hs.function.nextValue, ⟨hs.function.grow (Function.grows_withLiteral _ _) (fun p hp => ?_) rfl,
        hs.scopes⟩, fun _ => .of_eq rfl rfl⟩
      rcases List.mem_append.1 hp with hp | hp
      · exact Or.inl hp
      · rw [List.mem_singleton.1 hp]
        exact Or.inr rfl
  | newBlock =>
    intro s a s' hs h
    obtain ⟨f', hf', rfl⟩ := gives_inFunction.1 h
    obtain ⟨-, -, -, -, -, rfl⟩ := Function.newBlock_gives hf'
    exact ⟨trivial, hs.grow Function.grows_withLabel rfl rfl _, fun _ => .withLabel _ _⟩
  | labelOf b =>
    intro s a s' hs h
    obtain ⟨f', hf', rfl⟩ := gives_inFunction.1 h
    obtain ⟨-, rfl⟩ := Function.labelOf_gives.1 hf'
    exact ⟨trivial, hs, fun _ => .refl _ _⟩
  | startBlock b =>
    intro s a s' hs h
    obtain ⟨f', hf', rfl⟩ := gives_startBlock.1 h
    obtain ⟨-, -, -, rfl⟩ := Function.appendBlock_gives hf'
    exact ⟨trivial, hs.grow (Function.grows_place b) rfl rfl b, fun _ => .of_eq rfl rfl⟩
  | emit hop =>
    intro s a s' hs h
    obtain ⟨ha, hs'⟩ := owns_of_emit hs h
    refine ⟨ha, hs', fun {v} hv => ?_⟩
    have hgain := gains_of_emit h v
    rwa [List.count_eq_zero_of_not_mem fun hm => hv (hop v hm)] at hgain
  | leave hcond =>
    intro s a s' hs h
    obtain ⟨f', hf', rfl⟩ := gives_leave.1 h
    obtain ⟨hcheck, x, ⟨hx, hopen⟩, rfl⟩ := Function.setExit_gives.1 hf'
    obtain ⟨hlabel, -⟩ := Function.checkExit_eq_ok.1 hcheck
    refine ⟨trivial, hs.grow (Function.grows_withExit hx hopen _) rfl rfl _,
      fun hv => .of_block rfl (Function.block?_withExit hx _) fun hm => ?_⟩
    rcases List.mem_append.1 hm with hm | hm
    · exact hv (hcond _ hm)
    · obtain ⟨b, hb⟩ := hlabel _ hm
      exact hv (hs.function.label hb)
  | setReturnSlot hslot =>
    intro s a s' hs h
    obtain ⟨f', hf', rfl⟩ := gives_inFunction.1 h
    obtain rfl := gives_modify.1 hf'
    refine ⟨trivial, ⟨⟨hs.function.absent, hs.function.fresh, hs.function.label, hs.function.literal, ?_⟩, hs.scopes⟩,
      fun _ => .of_eq rfl rfl⟩
    rintro _ ⟨⟩
    exact hslot
  | @setReturn u b value hvalue =>
    intro s a s' hs h
    obtain ⟨f', hf', rfl⟩ := gives_inFunction.1 h
    obtain ⟨x, ty, hx, hopen, -, -, rfl⟩ := Function.setReturn_gives hf'
    refine ⟨trivial, hs.grow (Function.grows_withReturn hx hopen _) rfl rfl _, fun {v} hv => ?_⟩
    have hread : (Operation.give value).operands.count v = 0 :=
      List.count_eq_zero_of_not_mem fun hm => hv (hvalue v (Option.mem_toList.1 hm))
    have hpush : (s.function.withReturn b x value).instructions =
        s.function.instructions.push ⟨.give value, Function.nilValue⟩ := rfl
    refine .of_block ?_ (Function.block?_withReturn hx value) List.not_mem_nil
    rw [Function.count_reads_of_push hpush v, hread]

end Lowering

/-! ## Copies of arguments -/

namespace Function

variable {f g : Function} {entry b : BlockId} {v slot : ValueId} {ty : LoweredType} {op : Operation}

/-- The block has the instruction. -/
def Holds (f : Function) (b : BlockId) (ins : Instruction) : Prop :=
  ∃ x i, f.block? b = some x ∧ i ∈ x.instructions ∧ f.instruction? i = some ins

theorem Holds.grow {ins : Instruction} (h : f.Holds b ins) (hg : f.Grows g) : g.Holds b ins := by
  obtain ⟨x, i, hx, hi, hins⟩ := h
  obtain ⟨y, hy, hxy⟩ := hg.block hx
  have hmem := hxy.instructions.subset (Array.mem_toList_iff.2 hi)
  exact ⟨y, i, hy, Array.mem_toList_iff.1 hmem, hg.instruction? hins⟩

/-- The operation reads the argument to copy it into the slot.  An elementary argument is stored; where an address was
passed, the object there is read, and what was read is stored. -/
inductive Copies (f : Function) (entry : BlockId) (v slot : ValueId) : LoweredType → Operation → Prop where
  | elementary {e : Elementary} (stored : f.Holds entry ⟨.write slot v, nilValue⟩) :
      Copies f entry v slot (.elementary e) (.write slot v)
  | composite {id : TypeDefId} {content : ValueId} (read : f.Holds entry ⟨.read v, content⟩)
      (stored : f.Holds entry ⟨.write slot content, nilValue⟩) :
      Copies f entry v slot (LoweredType.composite id).pointerTo (.read v)

theorem Copies.grow (h : f.Copies entry v slot ty op) (hg : f.Grows g) : g.Copies entry v slot ty op := by
  cases h with
  | elementary stored => exact .elementary (stored.grow hg)
  | composite read stored => exact .composite (read.grow hg) (stored.grow hg)

/-- The argument is copied into the slot, which is made for it. -/
def Copied (f : Function) (entry : BlockId) (v slot : ValueId) (ty : LoweredType) : Prop :=
  f.Holds entry ⟨.alloca ty.pointee 1, slot⟩ ∧ ∃ op, f.Copies entry v slot ty op

theorem Copied.grow (h : f.Copied entry v slot ty) (hg : f.Grows g) : g.Copied entry v slot ty := by
  obtain ⟨hslot, op, hop⟩ := h
  exact ⟨hslot.grow hg, op, hop.grow hg⟩

end Function

/-- Types that arguments have: elementary values, and addresses of composites. -/
def LoweredType.IsPassed (ty : LoweredType) : Prop :=
  (∃ e, ty = .elementary e) ∨ ∃ id, ty = (LoweredType.composite id).pointerTo

theorem LoweredType.isPassed_asArgument {ty : LoweredType} (h : ty.isPointer = false) : ty.asArgument.IsPassed := by
  obtain ⟨kind, isPointer⟩ := ty
  cases h
  cases kind with
  | elementary e => exact Or.inl ⟨e, rfl⟩
  | composite id => exact Or.inr ⟨id, rfl⟩

namespace Lowering

variable {own : ValueId → Prop} {s s₁ s₂ s' : LoweringState} {v slot : ValueId} {ty : LoweredType}

/-- An instruction stands in the current block. -/
theorem holds_of_emit {op : Operation} {r : ValueId} (h : Gives (emit op) s r s') :
    s'.function.Holds s.current ⟨op, r⟩ ∧ s.function.Grows s'.function ∧ s'.current = s.current := by
  obtain ⟨x, t, hx, hopen, -, rfl, rfl⟩ := emit_gives h
  have hblock := Function.block?_withEmitted hx op t s.current
  rw [if_pos rfl] at hblock
  refine ⟨⟨_, s.function.nextInstruction, hblock, Array.mem_push_self, ?_⟩, Function.grows_withEmitted hx hopen op t,
    rfl⟩
  exact (Site.instruction?_withEmitted op t _).trans (if_pos rfl)

/-- A slot is a new value, the address of what it is made for. -/
theorem alloca_gives (h : Gives (alloca ty) s slot s') :
    slot = s.function.nextValue ∧ s'.function.valueType? slot = some ty.pointerTo := by
  obtain ⟨x, t, hx, hopen, hty, rfl, rfl⟩ := emit_gives h
  cases hty with
  | alloca hp hc =>
    refine ⟨rfl, ?_⟩
    have hvalue := Function.value?_withInstruction (f := s.function) (.alloca ty 1) (some ty.pointerTo)
      s.function.nextValue
    rw [if_pos ⟨rfl, rfl⟩] at hvalue
    exact Option.bind_eq_some_iff.2 ⟨_, hvalue, rfl⟩

/-- A write gives nothing. -/
theorem write_gives {memory value r : ValueId} (h : Gives (emit (.write memory value)) s r s') :
    r = Function.nilValue := by
  obtain ⟨x, t, hx, hopen, hty, rfl, -⟩ := emit_gives h
  cases hty
  rfl

/-- What storing an argument comes to: it is stored as it is, or read and then stored. -/
theorem store_gives (hslot : s.function.valueType? slot = some ty.pointee.pointerTo)
    (hv : s.function.valueType? v = some ty) (hty : ty.IsPassed) {a : Unit} (h : Gives (store slot v) s a s') :
    (∃ e, ty = .elementary e ∧ Gives (emit (.write slot v)) s Function.nilValue s') ∨
      ∃ id content s₁, ty = (LoweredType.composite id).pointerTo ∧ Gives (emit (.read v)) s content s₁ ∧
        Gives (emit (.write slot content)) s₁ Function.nilValue s' := by
  simp only [store, gives_bind (x := typeOf _), gives_typeOf, Function.operandType_eq_ok_iff_valueType?] at h
  obtain ⟨slotTy, _, ⟨hslot', rfl⟩, ty', _, ⟨hv', rfl⟩, h⟩ := h
  obtain rfl := Option.some.inj (hslot.symm.trans hslot')
  obtain rfl := Option.some.inj (hv.symm.trans hv')
  rcases hty with ⟨e, rfl⟩ | ⟨id, rfl⟩
  · rw [if_neg (by simp [LoweredType.elementary, LoweredType.isComposite, LoweredType.typedef?])] at h
    simp only [coerce, gives_bind, gives_typeOf, Function.operandType_eq_ok_iff_valueType?, gives_pure] at h
    obtain ⟨content, s₁, ⟨ty', _, ⟨hv', rfl⟩, hcontent⟩, r, _, hwrite, -, rfl⟩ := h
    obtain rfl := Option.some.inj (hv.symm.trans hv')
    have hsame : LoweredType.elementary e = (LoweredType.elementary e).pointee.pointerTo.pointee := rfl
    rw [if_pos hsame] at hcontent
    obtain ⟨rfl, rfl⟩ := gives_pure.1 hcontent
    obtain rfl := write_gives hwrite
    exact Or.inl ⟨e, rfl, hwrite⟩
  · rw [if_pos (by simp [LoweredType.composite, LoweredType.pointerTo, LoweredType.pointee, LoweredType.isComposite,
      LoweredType.typedef?, LoweredType.sameKind])] at h
    simp only [gives_bind, gives_pure] at h
    obtain ⟨content, s₁, hread, r, _, hwrite, -, rfl⟩ := h
    obtain rfl := write_gives hwrite
    exact Or.inr ⟨id, content, s₁, rfl, hread, hwrite⟩

/-- From `s` to `s'`, values that are not own have been read as often as they are listed, all in the current block. -/
structure Spilled (own : ValueId → Prop) (vs : List ValueId) (s s' : LoweringState) : Prop where
  owns : s'.Owns own
  current : s'.current = s.current
  grows : s.function.Grows s'.function
  gains : ∀ {w}, ¬ own w → s.function.Gains w (vs.count w) s'.function

namespace Spilled

theorem refl (hs : s.Owns own) : Spilled own [] s s := ⟨hs, rfl, .refl _, fun _ => .refl _ _⟩

theorem trans {vs ws : List ValueId} (h₁ : Spilled own vs s s₁) (h₂ : Spilled own ws s₁ s₂) :
    Spilled own (vs ++ ws) s s₂ :=
  ⟨h₂.owns, h₂.current.trans h₁.current, h₁.grows.trans h₂.grows, fun hw => by
    rw [List.count_append]
    exact (h₁.gains hw).trans (h₂.gains hw)⟩

theorem emit {op : Operation} {r : ValueId} {vs : List ValueId} (hs : s.Owns own) (h : Gives (emit op) s r s')
    (hcount : ∀ {w}, ¬ own w → op.operands.count w = vs.count w) : Spilled own vs s s' := by
  obtain ⟨-, hg, hc⟩ := holds_of_emit h
  exact ⟨(owns_of_emit hs h).2, hc, hg, fun {w} hw => hcount hw ▸ gains_of_emit h w⟩

end Spilled

/-- An argument that is stored is read once. -/
theorem store_copies (hs : s.Owns own) (hown : own slot)
    (hslot : s.function.valueType? slot = some ty.pointee.pointerTo) (hv : s.function.valueType? v = some ty)
    (hty : ty.IsPassed) {a : Unit} (h : Gives (store slot v) s a s') :
    Spilled own [v] s s' ∧ ∃ op, s'.function.Copies s.current v slot ty op := by
  have hother : ∀ {w}, ¬ own w → ∀ {u : ValueId}, own u → (u == w) = false := by
    intro w hw u hu
    rw [beq_eq_false_iff_ne]
    rintro rfl
    exact hw hu
  rcases store_gives hslot hv hty h with ⟨e, rfl, hwrite⟩ | ⟨id, content, s₁, rfl, hread, hwrite⟩
  · refine ⟨.emit hs hwrite fun hw => ?_, _, .elementary (holds_of_emit hwrite).1⟩
    simp [Operation.operands, List.count_cons, hother hw hown]
  · obtain ⟨hcontent, hs₁⟩ := owns_of_emit hs hread
    have h₁ : Spilled own [v] s s₁ := .emit hs hread fun _ => rfl
    have h₂ : Spilled own [] s₁ s' := .emit hs₁ hwrite fun hw => by
      simp [Operation.operands, List.count_cons, hother hw hown, hother hw hcontent]
    obtain ⟨hheld, hg, -⟩ := holds_of_emit hwrite
    rw [h₁.current] at hheld
    exact ⟨h₁.trans h₂, _, .composite ((holds_of_emit hread).1.grow hg) hheld⟩

/-- An argument is copied into a slot that is new. -/
theorem spill_copies (hs : s.Owns own) (hv : s.function.valueType? v = some ty) (hty : ty.IsPassed)
    (h₁ : Gives (alloca ty.pointee) s slot s₁) (h₂ : Gives (store slot v) s₁ () s₂) {name : String}
    (h₃ : Gives (define name slot) s₂ () s') :
    Spilled own [v] s s' ∧ s'.function.Copied s.current v slot ty ∧ slot = s.function.nextValue ∧
      s.function.values.size < s'.function.values.size := by
  obtain ⟨hnew, hslot⟩ := alloca_gives h₁
  obtain ⟨hown, hs₁⟩ := owns_of_emit hs h₁
  have made : Spilled own [] s s₁ := .emit hs h₁ fun _ => rfl
  obtain ⟨stored, op, hop⟩ := store_copies hs₁ hown hslot (made.grows.valueType? hv) hty h₂
  obtain ⟨hs', scopes, rfl⟩ := owns_of_define stored.owns hown h₃
  have named : Spilled own [] s₂ { s₂ with scopes := scopes } := ⟨hs', rfl, .refl _, fun _ => .refl _ _⟩
  obtain ⟨hheld, -⟩ := holds_of_emit h₁
  rw [made.current] at hop
  refine ⟨(made.trans stored).trans named, ⟨hheld.grow stored.grows, op, hop⟩, hnew, ?_⟩
  obtain ⟨x, hx, -⟩ := Option.bind_eq_some_iff.1 (stored.grows.valueType? hslot)
  rw [hnew] at hx
  exact Function.value?_lt hx

/-- **Each argument is copied into a slot of its own**, from a position on. -/
theorem spillArguments_copies {name : String} (params : List Param) : ∀ {position : Nat} {s : LoweringState} {a : Unit},
    s.Owns own →
    (∀ {i v}, s.function.argumentValue? i = some v → ∃ ty, s.function.valueType? v = some ty ∧ ty.IsPassed) →
    Gives (spillArguments name position params) s a s' →
    Spilled own ((s.function.argumentValues.toList.drop position).take params.length) s s' ∧
      ∃ slots : List ValueId, slots.length = params.length ∧ slots.Nodup ∧
        (∀ slot ∈ slots, s.function.values.size ≤ slot.index) ∧
        ∀ {j slot v ty}, slots[j]? = some slot → s.function.argumentValue? (position + j) = some v →
          s.function.valueType? v = some ty → s'.function.Copied s.current v slot ty := by
  induction params with
  | nil =>
    intro position s a hs _ h
    obtain ⟨-, rfl⟩ := gives_pure.1 h
    refine ⟨by simpa using Spilled.refl hs, [], rfl, .nil, by simp, ?_⟩
    intro j slot v ty hj
    simp at hj
  | cons param params ih =>
    intro position s a hs hargs h
    obtain ⟨v, ty, slot, s₁, s₂, s₃, harg, hty, h₁, h₂, h₃, h⟩ := Site.gives_spillArguments_cons h
    obtain ⟨ty', hty', hpass⟩ := hargs harg
    obtain rfl := Option.some.inj ((Function.operandType_eq_ok_iff_valueType?.1 hty).symm.trans hty')
    obtain ⟨first, hcopied, hnew, hsize⟩ := spill_copies hs hty' hpass h₁ h₂ h₃
    have hvalues : s₃.function.argumentValues = s.function.argumentValues := first.grows.argumentValues
    have hargs₃ : ∀ {i w}, s₃.function.argumentValue? i = some w →
        ∃ t, s₃.function.valueType? w = some t ∧ t.IsPassed := by
      intro i w hw
      rw [Function.argumentValue?, hvalues] at hw
      obtain ⟨t, ht, hp⟩ := hargs hw
      exact ⟨t, first.grows.valueType? ht, hp⟩
    obtain ⟨rest, slots, hlen, hnodup, hfresh, hcopies⟩ := ih first.owns hargs₃ h
    refine ⟨?_, slot :: slots, by simp [hlen], ?_, ?_, ?_⟩
    · have hget : s.function.argumentValues.toList[position]? = some v := by
        rw [Array.getElem?_toList]
        exact harg
      obtain ⟨hlt, rfl⟩ := List.getElem?_eq_some_iff.1 hget
      rw [hvalues] at rest
      rw [List.drop_eq_getElem_cons hlt]
      exact first.trans rest
    · refine List.nodup_cons.2 ⟨fun hm => ?_, hnodup⟩
      rw [hnew] at hm
      have hle : s₃.function.values.size ≤ s.function.values.size := hfresh _ hm
      omega
    · refine List.forall_mem_cons.2 ⟨?_, fun w hw => ?_⟩
      · rw [hnew]
        exact Nat.le_refl _
      · have hle := hfresh w hw
        omega
    · intro j w x t hj hx ht
      cases j with
      | zero =>
        obtain rfl := Option.some.inj hj
        obtain rfl := Option.some.inj (harg.symm.trans hx)
        obtain rfl := Option.some.inj (hty'.symm.trans ht)
        exact hcopied.grow rest.grows
      | succ j =>
        rw [← first.current]
        refine hcopies hj ?_ (first.grows.valueType? ht)
        rw [Function.argumentValue?, hvalues, Nat.add_assoc, Nat.add_comm 1 j]
        exact hx

end Lowering

/-! ## Lowered functions -/

/-- What two members of a list bring along between them only once, they do not both bring along. -/
theorem eq_of_count_flatMap_eq_one {α β : Type} [DecidableEq β] {k : α → List β} {b : β} {l : List α}
    (h : (l.flatMap k).count b = 1) {x y : α} (hx : x ∈ l) (hy : y ∈ l) (hbx : b ∈ k x) (hby : b ∈ k y) : x = y := by
  induction l with
  | nil => cases hx
  | cons a l ih =>
    rw [List.flatMap_cons, List.count_append] at h
    have later : ∀ {z}, z ∈ l → b ∈ k z → 0 < (l.flatMap k).count b := fun hz hbz =>
      List.count_pos_iff.2 (List.mem_flatMap.2 ⟨_, hz, hbz⟩)
    have first : ∀ {z}, z ∈ l → b ∈ k z → (k a).count b = 0 := fun hz hbz => by
      have := later hz hbz
      omega
    rcases List.mem_cons.1 hx with rfl | hx'
    · rcases List.mem_cons.1 hy with rfl | hy'
      · rfl
      · exact absurd hbx (List.count_eq_zero.1 (first hy' hby))
    · rcases List.mem_cons.1 hy with rfl | hy'
      · exact absurd hby (List.count_eq_zero.1 (first hx' hbx))
      · rw [first hx' hbx, Nat.zero_add] at h
        exact ih h hx' hy'

namespace Function

variable {f g : Function} {entry : BlockId} {v w slot : ValueId} {ty : LoweredType} {tys : List LoweredType}

/-- Addresses inside the object at an address: that address, and the addresses of parts of what is there. -/
inductive Within (f : Function) (root : ValueId) : ValueId → Prop where
  | self : Within f root root
  | member {o v : ValueId} {index : Nat} (inside : Within f root o)
      (made : ⟨.objMemberAt o index, v⟩ ∈ f.instructions) : Within f root v
  | payload {o v : ValueId} {index : Nat} (inside : Within f root o)
      (made : ⟨.unionMemberAt o index, v⟩ ∈ f.instructions) : Within f root v

/-- The argument is an operand once: in the entry block, to be copied into a slot of its own. -/
structure PassedByValue (f : Function) (entry : BlockId) (v slot : ValueId) (ty : LoweredType) : Prop where
  once : f.operands.count v = 1
  made : f.Holds entry ⟨.alloca ty.pointee 1, slot⟩
  apart : slot ≠ v
  /-- Nothing but the copying operation reads the argument. -/
  copy : ∃ op, f.Copies entry v slot ty op ∧ ∀ ins ∈ f.instructions, v ∈ ins.operation.operands → ins.operation = op
  exits : ∀ x ∈ f.blocks, v ∉ x.exitOperands
  /-- Where an address was passed, nothing is stored in the object there, and no part of it is passed on. -/
  untouched : ∀ {w}, f.Within v w → ∀ ins ∈ f.instructions,
    ins.operation.storesAt? ≠ some w ∧ ∀ name args, ins.operation = .call name args → w ∉ args

/-- The arguments of the function are passed by value, with one slot for each. -/
structure CopiesArguments (f : Function) (entry : BlockId) (slots : List ValueId) : Prop where
  first : f.blockIds.head? = some entry
  values : f.argumentValues.size = f.arguments.length
  lengths : slots.length = f.arguments.length
  nodup : slots.Nodup
  passed : ∀ {i v slot ty}, f.argumentValue? i = some v → slots[i]? = some slot → f.arguments[i]? = some ty →
    f.valueType? v = some ty ∧ f.PassedByValue entry v slot ty

theorem Holds.mem {b : BlockId} {ins : Instruction} (h : f.Holds b ins) : ins ∈ f.instructions := by
  obtain ⟨x, i, -, -, hins⟩ := h
  exact Array.mem_of_getElem? hins

/-- The copying operation is an instruction that has the argument as an operand. -/
theorem Copies.mem {op : Operation} (h : f.Copies entry v slot ty op) :
    v ∈ op.operands ∧ ∃ r, ⟨op, r⟩ ∈ f.instructions := by
  cases h with
  | elementary stored => exact ⟨by simp [Operation.operands], _, stored.mem⟩
  | composite read stored => exact ⟨by simp [Operation.operands], _, read.mem⟩

/-- An argument that is copied, and read once in all, is passed by value. -/
theorem Copied.passedByValue (h : f.Copied entry v slot ty) (hreads : f.reads.count v = 1) (hslot : slot ≠ v)
    (hexits : ∀ x ∈ f.blocks, v ∉ x.exitOperands) : f.PassedByValue entry v slot ty := by
  obtain ⟨hmade, op, hop⟩ := h
  obtain ⟨hv, r, hmem⟩ := hop.mem
  have only : ∀ ins ∈ f.instructions, v ∈ ins.operation.operands → ins.operation = op := by
    intro ins hins hvins
    have hsame := eq_of_count_flatMap_eq_one hreads (Array.mem_toList_iff.2 hins) (Array.mem_toList_iff.2 hmem) hvins hv
    rw [hsame]
  have hwithin : ∀ {w}, f.Within v w → w = v := by
    intro w hw
    induction hw with
    | self => rfl
    | member _ made ih | payload _ made ih =>
      subst ih
      have := only _ made (by simp [Operation.operands])
      cases this ▸ hop
  refine ⟨?_, hmade, hslot, ⟨op, hop, only⟩, hexits, ?_⟩
  · have hnone : (f.blocks.toList.flatMap Block.exitOperands).count v = 0 := by
      rw [List.count_eq_zero, List.mem_flatMap]
      rintro ⟨x, hx, hvx⟩
      exact hexits x (Array.mem_toList_iff.1 hx) hvx
    rw [operands, List.count_append, hreads, hnone]
  · intro w hw ins hins
    obtain rfl := hwithin hw
    refine ⟨fun hstore => ?_, ?_⟩
    · have hsame := only ins hins (Operation.mem_operands_of_storesAt? hstore)
      rw [hsame] at hstore
      cases hop with
      | elementary => exact hslot (Option.some.inj hstore)
      | composite => cases hstore
    · rintro name args hcall harg
      have := only ins hins (by rw [hcall]; exact harg)
      rw [hcall] at this
      cases this ▸ hop

/-! The values of arguments are the ones that are not own. -/

theorem Fresh.value?_argument (hf : f.Fresh tys) {i : Nat} (hv : f.argumentValue? i = some v) :
    ∃ ty x, tys[i]? = some ty ∧ f.value? v = some x ∧ x.kind = .argument i ∧ x.ty = some ty := by
  have hlt : i < tys.length := by
    rw [← hf.count]
    exact (Array.getElem?_eq_some_iff.1 hv).1
  obtain ⟨w, x, hw, hx, hk, ht⟩ := hf.argument (List.getElem?_eq_getElem hlt)
  obtain rfl := Option.some.inj (hv.symm.trans hw)
  exact ⟨_, x, List.getElem?_eq_getElem hlt, hx, hk, ht⟩

theorem Fresh.nodup_argumentValues (hf : f.Fresh tys) : f.argumentValues.toList.Nodup := by
  rw [List.nodup_iff_getElem?_ne_getElem?]
  intro i j hij hj he
  obtain ⟨v, hv⟩ : ∃ v, f.argumentValue? j = some v :=
    ⟨_, Array.getElem?_eq_getElem (by simpa using hj)⟩
  rw [Array.getElem?_toList, Array.getElem?_toList] at he
  obtain ⟨-, x, -, hx, hkx, -⟩ := hf.value?_argument (he.trans hv)
  obtain ⟨-, y, -, hy, hky, -⟩ := hf.value?_argument hv
  obtain rfl := Option.some.inj (hx.symm.trans hy)
  have hsame : i = j := ValueKind.argument.inj (hkx.symm.trans hky)
  omega

theorem Fresh.owns_opened (hf : f.Fresh tys) : f.opened.Owns (· ∉ f.argumentValues) := by
  have hargument : ∀ {w}, w ∈ f.argumentValues → ∃ x i, f.opened.value? w = some x ∧ x.kind = .argument i := by
    intro w hw
    obtain ⟨i, hi⟩ := Array.mem_iff_getElem?.1 hw
    obtain ⟨-, x, -, hx, hk, -⟩ := hf.value?_argument hi
    exact ⟨x, i, Fresh.value?_opened hx, hk⟩
  refine ⟨fun hw => ?_, fun hle hw => ?_, fun hlabel hw => ?_, ?_, ?_⟩
  · obtain ⟨x, i, hx, hk⟩ := hargument hw
    obtain rfl := Option.some.inj (hx.symm.trans (Fresh.value?_opened hf.absent))
    cases hk
  · obtain ⟨x, i, hx, -⟩ := hargument hw
    have hlt := value?_lt hx
    omega
  · obtain ⟨x, i, hx, hk⟩ := hargument hw
    simp [labelTarget?, hx, Value.label?, hk] at hlabel
  · have hnone : f.opened.literals = [] := hf.literals
    simp [hnone]
  · have hnone : f.opened.returnSlot = none := hf.returnSlot
    simp [hnone]

end Function

namespace CompilationUnit

variable {u u' : CompilationUnit}

theorem lowerParams_passed {params : List Param} : ∀ {u tys u'}, Gives (lowerParams params) u tys u' →
    tys.length = params.length ∧ ∀ ty ∈ tys, ty.IsPassed := by
  induction params with
  | nil =>
    intro u tys u' h
    obtain ⟨rfl, rfl⟩ := gives_pure.1 h
    exact ⟨rfl, by simp⟩
  | cons param params ih =>
    intro u tys u' h
    simp only [lowerParams, gives_bind, gives_pure] at h
    obtain ⟨ty, u₁, h₁, rest, _, h₂, rfl, rfl⟩ := h
    obtain ⟨hlen, hall⟩ := ih h₂
    have hpass := LoweredType.isPassed_asArgument (lowerType_isPointer h₁)
    exact ⟨by simp [hlen], List.forall_mem_cons.2 ⟨hpass, hall⟩⟩

theorem lowerSignature_passed {s : Signature} {arguments : List LoweredType} {result : LoweredType}
    (h : Gives (lowerSignature s) u (arguments, result) u') :
    arguments.length = s.params.length ∧ ∀ ty ∈ arguments, ty.IsPassed := by
  simp only [lowerSignature, gives_bind, gives_pure] at h
  obtain ⟨_, _, h₁, _, _, _, hp, -⟩ := h
  cases hp
  exact lowerParams_passed h₁

end CompilationUnit

namespace Site

open Lowering

variable {item : FunctionItem} {u : CompilationUnit} {f : Function} {tys : List LoweredType} {g₁ g₂ g₃ g₄ g : Site}

/-- Every argument gets its copy, and whatever is lowered before or after the copies are made reads none of them. -/
theorem Course.copies (h : Course item ⟨u, f.opened, ⟨0⟩, ⟨1⟩, [[]]⟩ g₁ g₂ g₃ g₄ g) (hf : f.Fresh tys)
    (hgrow : f.opened.Grows g₁.state.function) (hlen : tys.length = item.signature.params.length)
    (hpass : ∀ ty ∈ tys, ty.IsPassed) :
    (∀ v ∈ f.argumentValues, f.opened.Gains v 1 g.state.function) ∧
      ∃ slots : List ValueId, slots.length = tys.length ∧ slots.Nodup ∧
        ∀ {i v slot ty}, f.argumentValue? i = some v → slots[i]? = some slot → tys[i]? = some ty →
          g.state.function.valueType? v = some ty ∧ slot ≠ v ∧ g.state.function.Copied ⟨0⟩ v slot ty := by
  have hvalues : g₁.state.function.argumentValues = f.argumentValues := hgrow.argumentValues
  have htype : ∀ {i v}, f.argumentValue? i = some v →
      ∃ ty, tys[i]? = some ty ∧ g₁.state.function.valueType? v = some ty := by
    intro i v hv
    obtain ⟨ty, x, hty, hx, -, ht⟩ := hf.value?_argument hv
    exact ⟨ty, hty, Option.bind_eq_some_iff.2 ⟨x, hgrow.value? (Function.Fresh.value?_opened hx), ht⟩⟩
  have hpassed : ∀ {i v}, g₁.state.function.argumentValue? i = some v →
      ∃ ty, g₁.state.function.valueType? v = some ty ∧ ty.IsPassed := by
    intro i v hv
    rw [Function.argumentValue?, hvalues] at hv
    obtain ⟨ty, hty, ht⟩ := htype hv
    exact ⟨ty, ht, hpass ty (List.mem_of_getElem? hty)⟩
  have hopened : LoweringState.Owns ⟨u, f.opened, ⟨0⟩, ⟨1⟩, [[]]⟩ (· ∉ f.argumentValues) :=
    ⟨hf.owns_opened, by simp⟩
  obtain ⟨-, hs₁, gains₁⟩ := Made.prepareReturn.keeps hopened h.prepared
  obtain ⟨spilled, slots, hslots, hnodup, hfresh, hcopied⟩ := spillArguments_copies _ hs₁ hpassed h.spilled
  obtain ⟨-, hs₃, gains₃⟩ := (Made.lowerBody item.body).keeps spilled.owns h.lowered
  obtain ⟨-, hs₄, gains₄⟩ := (Made.branchTo _).keeps hs₃ h.left
  obtain ⟨-, -, gains₅⟩ := ((Made.startBlock _).bind fun _ _ => Made.finishReturn).keeps hs₄ h.finished
  refine ⟨fun v hv => ?_, slots, hslots.trans hlen.symm, hnodup, fun {i v slot ty} hv hslot hty => ?_⟩
  · have hcount : ((g₁.state.function.argumentValues.toList.drop 0).take item.signature.params.length).count v = 1 := by
      rw [hvalues, List.drop_zero, List.take_of_length_le (by rw [Array.length_toList, hf.count, hlen])]
      exact List.count_eq_one_of_mem hf.nodup_argumentValues (Array.mem_toList_iff.2 hv)
    have hv' := not_not.2 hv
    have gains₂ := spilled.gains hv'
    rw [hcount] at gains₂
    exact (gains₁ hv').trans (gains₂.trans ((gains₃ hv').trans ((gains₄ hv').trans (gains₅ hv'))))
  · obtain ⟨ty', hty', ht⟩ := htype hv
    obtain rfl := Option.some.inj (hty'.symm.trans hty)
    have hcurrent : g₁.state.current = ⟨0⟩ := by
      rcases prepareReturn_gives h.prepared with ⟨-, hs⟩ | ⟨-, x, ty, -, -, hs⟩ <;> rw [hs]
    have hcopy := hcopied hslot (by rw [Function.argumentValue?, hvalues, Nat.zero_add]; exact hv) ht
    rw [hcurrent] at hcopy
    refine ⟨h.trace.function_grows.valueType? ht, ?_,
      hcopy.grow (h.trace₂.trans (h.trace₃.trans h.trace₄)).function_grows⟩
    -- the slot is newer than the argument
    rintro rfl
    obtain ⟨x, hx, -⟩ := Option.bind_eq_some_iff.1 ht
    have hlt := Function.value?_lt hx
    have hle := hfresh _ (List.mem_of_getElem? hslot)
    omega

/-- **A lowered definition copies its arguments.** -/
theorem Course.copiesArguments (h : Course item ⟨u, f.opened, ⟨0⟩, ⟨1⟩, [[]]⟩ g₁ g₂ g₃ g₄ g) (hf : f.Fresh tys)
    (harguments : f.arguments = tys) (hgrow : f.opened.Grows g₁.state.function)
    (hlen : tys.length = item.signature.params.length) (hpass : ∀ ty ∈ tys, ty.IsPassed) :
    ∃ slots, g.state.function.CopiesArguments ⟨0⟩ slots := by
  obtain ⟨hgains, slots, hslots, hnodup, hcopied⟩ := h.copies hf hgrow hlen hpass
  have hgrow' := hgrow.trans h.trace.function_grows
  have harguments' : g.state.function.arguments = tys := hgrow'.arguments.trans harguments
  have hvalues : g.state.function.argumentValues = f.argumentValues := hgrow'.argumentValues
  refine ⟨slots, (h.controlFlow hf hgrow).first, ?_, ?_, hnodup, fun {i v slot ty} hv hslot hty => ?_⟩
  · rw [hvalues, harguments', hf.count]
  · rw [harguments', hslots]
  · rw [Function.argumentValue?, hvalues] at hv
    rw [harguments'] at hty
    obtain ⟨ht, hapart, hcopy⟩ := hcopied hv hslot hty
    have gains := hgains v (Array.mem_of_getElem? hv)
    refine ⟨ht, hcopy.passedByValue ?_ hapart fun x hx hvx => ?_⟩
    · have hnone : f.opened.instructions = #[] := hf.instructions
      rw [gains.reads]
      simp [Function.reads, hnone]
    · obtain ⟨b, hb⟩ := Array.mem_iff_getElem?.1 hx
      obtain ⟨c, y, hy, hvy⟩ := gains.exits (b := ⟨b⟩) hb hvx
      rw [Block.exitOperands_of_open (hf.block?_opened hy).2] at hvy
      cases hvy

end Site

/-- **Arguments are passed by value.**  In every definition of a lowered unit each argument is an operand once: in the
entry block, as what is stored in a slot of its own if it is elementary, as the address that is read to fill the slot if
it is composite.  No exit looks at it, and nothing is stored at the address that was passed or inside the object
there. -/
theorem Module.lower_copiesArguments {m : Module} {options : Options} {u : CompilationUnit}
    (h : m.lower options = .ok u) {f : Function} (hf : f ∈ u.functions.values) (hd : f.isDeclaration = false) :
    ∃ entry slots, f.CopiesArguments entry slots := by
  rcases Module.lower_defined h f hf with hdecl | ⟨item, arguments, result, u₀, u₁, u₂, hu, hsig, hdef⟩
  · rw [hd] at hdecl
    cases hdecl
  · obtain ⟨-, hu₁, ha, hr, -⟩ := CompilationUnit.lowerSignature_gives hsig hu
    obtain ⟨hlen, hpass⟩ := CompilationUnit.lowerSignature_passed hsig
    obtain ⟨f₀, g₁, g₂, g₃, g₄, g, hcourse, rfl, -, -, hgrow, hfresh, -, harguments, -⟩ :=
      CompilationUnit.defineFunction_course hu₁ ha hr hdef
    exact ⟨_, hcourse.copiesArguments hfresh harguments hgrow hlen hpass⟩

namespace Sample

/-- `point`, the definition of `x:i32, y:i32` -/
def point : Ty :=
  .defined "point" (.operator .product [.leaf "x" (.elementary .i32), .leaf "y" (.elementary .i32)])

/-- `fn reset(p: point, n: i32) -> i32 { p = point(n, 2); n = 3; return n }` -/
def reset : FunctionItem :=
  .of ⟨"reset", [⟨"p", point, default⟩, ⟨"n", .elementary .i32, default⟩], some (.elementary .i32), default⟩
    (.ofStatements
      [.assign "p" (.ofConstruct point
        [.ident "n" (.elementary .i32) default, .constant (.int 2) (.elementary .i32) default] default) default,
      .assign "n" (.constant (.int 3) (.elementary .i32) default) default,
      .give (some (.ident "n" (.elementary .i32) default)) default]
      default)

/-- A function that assigns to its parameters, of which one is composite. -/
def resetting : Module := ⟨"sample", [.function reset], .empty⟩

/-- Both parameters are assigned to, and what was passed is only copied. -/
theorem reset_copiesArguments :
    ∃ u f, resetting.lower {} = .ok u ∧ f ∈ u.functions.values ∧ f.isDeclaration = false ∧
      f.arguments = [(LoweredType.composite ⟨0⟩).pointerTo, .elementary .i32] ∧
      ∃ entry slots, f.CopiesArguments entry slots := by
  have hrun : (resetting.lower {}).toOption.any (fun u => u.functions.values.head?.any fun f => decide
      (f.isDeclaration = false ∧ f.arguments = [(LoweredType.composite ⟨0⟩).pointerTo, .elementary .i32])) = true := by
    decide +kernel
  obtain ⟨u, hu, hhead⟩ := (Option.any_eq_true _ _).1 hrun
  obtain ⟨f, hf, hdecided⟩ := (Option.any_eq_true _ _).1 hhead
  obtain ⟨hd, harguments⟩ := of_decide_eq_true hdecided
  have hmem := List.mem_of_mem_head? (Option.mem_def.2 hf)
  have hlower := eq_ok_of_toOption hu
  exact ⟨u, f, hlower, hmem, hd, harguments, Module.lower_copiesArguments hlower hmem hd⟩

end Sample

end BlockForm
