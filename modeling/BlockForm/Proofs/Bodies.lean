import BlockForm.Lowering.Program
import BlockForm.Proofs.Statements

/-!
# BlockForm.Proofs.Bodies — the definition of a function, from its arguments to its return

A definition starts with the values of its arguments (`Function.Fresh`), gets its entry and end block, and is then
lowered along one trace to a site that is `Done`: the invariants hold, every block is placed, and the last one is the
end block, which returns.
-/

namespace BlockForm

open Action

namespace Function

variable {f f' : Function}

/-! ## Arguments -/

/-- A definition that has the values of its arguments, of the given types, and nothing else. -/
structure Fresh (f : Function) (tys : List LoweredType) : Prop where
  layout : f.layout = some #[]
  blocks : f.blocks = #[]
  instructions : f.instructions = #[]
  literals : f.literals = []
  returnSlot : f.returnSlot = none
  absent : f.value? nilValue = some .nil
  /-- A value is the absent one or an argument. -/
  only : ∀ {v x}, f.value? v = some x → x = .nil ∨ ∃ i ty, x.kind = .argument i ∧ x.ty = some ty ∧ ty ∈ tys
  count : f.argumentValues.size = tys.length
  /-- Each argument has a value of its type. -/
  argument : ∀ {i ty}, tys[i]? = some ty → ∃ v x, f.argumentValue? i = some v ∧ f.value? v = some x ∧
    x.kind = .argument i ∧ x.ty = some ty

/-- The function with the value of one more argument. -/
def withArgument (f : Function) (position : Nat) (ty : LoweredType) : Function :=
  { f.withValue ⟨.argument position, some ty, f.variableName⟩ with
    nextVariable := f.nextVariable + 1
    names := f.names.insert f.variableName (.argument position)
    argumentValues := f.argumentValues.push f.nextValue }

theorem pushArgument_gives {position : Nat} {ty : LoweredType} {a : Unit}
    (h : Gives (pushArgument position ty) f a f') : f' = f.withArgument position ty := by
  simp only [pushArgument, gives_bind (x := freshVariable), gives_bind (x := bindName _ _),
    gives_bind (x := pushValue _), freshVariable_gives, bindName_gives, pushValue_gives, gives_modify] at h
  obtain ⟨_, _, ⟨rfl, rfl⟩, _, _, ⟨-, rfl⟩, _, _, ⟨-, rfl, rfl⟩, rfl⟩ := h
  rfl

theorem Fresh.withArgument {tys : List LoweredType} (h : f.Fresh tys) (ty : LoweredType) :
    (f.withArgument tys.length ty).Fresh (tys ++ [ty]) := by
  have hvalue : ∀ v, (f.withArgument tys.length ty).value? v =
      if v = f.nextValue then some ⟨.argument tys.length, some ty, f.variableName⟩ else f.value? v :=
    value?_withValue _
  have hold : ∀ {v x}, f.value? v = some x → (f.withArgument tys.length ty).value? v = some x := by
    intro v x hx
    have : v ≠ f.nextValue := by
      rintro rfl
      exact Nat.lt_irrefl _ (value?_lt hx)
    rw [hvalue, if_neg this, hx]
  refine ⟨h.layout, h.blocks, h.instructions, h.literals, h.returnSlot, hold h.absent, ?_, ?_, ?_⟩
  · intro v x hx
    rw [hvalue] at hx
    split at hx
    · cases hx
      exact Or.inr ⟨_, ty, rfl, rfl, by simp⟩
    · rcases h.only hx with hn | ⟨i, t, hk, ht, hm⟩
      · exact Or.inl hn
      · exact Or.inr ⟨i, t, hk, ht, List.mem_append_left _ hm⟩
  · simp [Function.withArgument, h.count]
  · intro i t hi
    have hget : (f.withArgument tys.length ty).argumentValue? i = (f.argumentValues.push f.nextValue)[i]? := rfl
    rw [List.getElem?_append] at hi
    split at hi
    · next hlt =>
      obtain ⟨v, x, hv, hx, hk, ht⟩ := h.argument hi
      refine ⟨v, x, ?_, hold hx, hk, ht⟩
      rw [hget, Array.getElem?_push_lt (by rw [h.count]; exact hlt)]
      exact (Array.getElem?_eq_getElem _).symm.trans hv
    · next hge =>
      obtain ⟨hlt, -⟩ := List.getElem?_eq_some_iff.1 hi
      have he : i = tys.length := by simp at hlt; omega
      subst he
      simp only [Nat.sub_self, List.getElem?_cons_zero, Option.some.injEq] at hi
      subst hi
      refine ⟨f.nextValue, ⟨.argument tys.length, some ty, f.variableName⟩, ?_, ?_, rfl, rfl⟩
      · rw [hget, ← h.count, Array.getElem?_push_size]
      · rw [hvalue, if_pos rfl]

theorem Fresh.pushArguments {tys : List LoweredType} : ∀ {f : Function} {made : List LoweredType} {a : Unit},
    f.Fresh made → Gives (pushArguments made.length tys) f a f' →
    f'.Fresh (made ++ tys) ∧ f'.name = f.name ∧ f'.arguments = f.arguments ∧ f'.returnType = f.returnType := by
  induction tys with
  | nil =>
    intro f made a hf h
    simp only [Function.pushArguments, gives_pure] at h
    obtain ⟨-, rfl⟩ := h
    exact ⟨by simpa using hf, rfl, rfl, rfl⟩
  | cons ty tys ih =>
    intro f made a hf h
    simp only [Function.pushArguments, gives_bind] at h
    obtain ⟨_, f₁, h₁, h₂⟩ := h
    obtain rfl := pushArgument_gives h₁
    have hf₁ := hf.withArgument ty
    obtain ⟨hf', hn, ha, hr⟩ := ih hf₁ (by simpa using h₂)
    exact ⟨by simpa using hf', hn, ha, hr⟩

theorem fresh_declaration (name : String) (arguments : List LoweredType) (returnType : LoweredType) :
    Fresh { declaration name arguments returnType with layout := some #[] } [] := by
  refine ⟨rfl, rfl, rfl, rfl, rfl, rfl, ?_, rfl, by simp⟩
  intro v x hx
  have hx' : (#[Value.nil])[v.index]? = some x := hx
  obtain ⟨hlt, he⟩ := Array.getElem?_eq_some_iff.1 hx'
  obtain ⟨n⟩ := v
  have : n = 0 := by simpa using hlt
  subst this
  exact Or.inl he.symm

/-- **A definition starts with the values of its arguments.** -/
theorem fresh_definition {name : String} {arguments : List LoweredType} {returnType : LoweredType}
    (h : (definition name arguments returnType).result = .ok ()) :
    let f := (definition name arguments returnType).state
    f.Fresh arguments ∧ f.name = name ∧ f.arguments = arguments ∧ f.returnType = returnType := by
  have hgives : Gives (pushArguments ([] : List LoweredType).length arguments)
      { declaration name arguments returnType with layout := some #[] } ()
      (definition name arguments returnType).state := ⟨h, rfl⟩
  have := (fresh_declaration name arguments returnType).pushArguments hgives
  rw [List.nil_append] at this
  exact this

/-! ## The first two blocks -/

/-- The function with its entry block, which is placed, and its end block, which is not. -/
def opened (f : Function) : Function :=
  { (f.withLabel.place f.nextBlock).withLabel with endLabel := some f.withLabel.nextValue }

theorem openBody_gives {entry endBlock : BlockId} {tys : List LoweredType} (hf : f.Fresh tys)
    (h : Gives openBody f (entry, endBlock) f') : entry = ⟨0⟩ ∧ endBlock = ⟨1⟩ ∧ f' = f.opened := by
  simp only [openBody, gives_bind, gives_pure, setEndLabel, gives_modify] at h
  obtain ⟨b, f₁, h₁, _, f₂, h₂, c, f₃, h₃, label, f₄, h₄, _, f₅, rfl, hb, rfl⟩ := h
  obtain ⟨-, -, -, -, rfl, rfl⟩ := newBlock_gives h₁
  obtain ⟨l, -, -, rfl⟩ := appendBlock_gives h₂
  obtain ⟨-, -, -, -, rfl, rfl⟩ := newBlock_gives h₃
  obtain ⟨⟨x, hx, rfl⟩, rfl⟩ := labelOf_gives.1 h₄
  rw [block?_withLabel_eq, if_pos rfl] at hx
  cases hx
  cases hb
  refine ⟨?_, ?_, rfl⟩
  · simp [nextBlock, hf.blocks]
  · simp [nextBlock, place, withLabel, hf.blocks]

section Opened

variable {tys : List LoweredType}

theorem Fresh.blockIds_opened (hf : f.Fresh tys) : f.opened.blockIds = [⟨0⟩] := by
  simp [opened, blockIds, withLabel, place, hf.layout, nextBlock, hf.blocks]

theorem Fresh.blocks_opened (hf : f.Fresh tys) :
    f.opened.blocks = #[⟨f.nextValue, #[], none⟩, ⟨f.withLabel.nextValue, #[], none⟩] := by
  simp [opened, withLabel, place, hf.blocks, nextValue]

/-- Both blocks are empty and open. -/
theorem Fresh.block?_opened (hf : f.Fresh tys) {b : BlockId} {x : Block} (hx : f.opened.block? b = some x) :
    x.instructions = #[] ∧ x.exit = none := by
  rw [block?, hf.blocks_opened] at hx
  obtain ⟨_ | _ | n⟩ := b
  · cases hx
    exact ⟨rfl, rfl⟩
  · cases hx
    exact ⟨rfl, rfl⟩
  · simp at hx

theorem Fresh.coherent (hf : f.Fresh tys) : f.Coherent := by
  have hkind : ∀ {v x}, f.value? v = some x → x.kind = .nil ∨ ∃ i, x.kind = .argument i := by
    intro v x hx
    rcases hf.only hx with rfl | ⟨i, ty, hk, -⟩
    · exact Or.inl rfl
    · exact Or.inr ⟨i, hk⟩
  have hins : ∀ i, f.instruction? i = none := by simp [instruction?, hf.instructions]
  have hblk : ∀ b, f.block? b = none := by simp [block?, hf.blocks]
  refine ⟨hf.absent, ?_, ?_, ?_, ?_, ?_, ?_, ?_⟩
  · intro v x hx ht
    rcases hf.only hx with rfl | ⟨i, ty, hk, -⟩
    · simp [Value.nil] at ht
    · exact ⟨by simp [hk], by simp [hk]⟩
  · intro v x i hx hk
    rcases hkind hx with h | ⟨j, h⟩ <;> simp [h] at hk
  · intro i ins hi
    simp [hins] at hi
  · intro v x b hx hk
    rcases hkind hx with h | ⟨j, h⟩ <;> simp [h] at hk
  · intro b y hy
    simp [hblk] at hy
  · intro i ins hi
    simp [hins] at hi
  · intro b y e hy
    simp [hblk] at hy

/-- Only arguments have a type. -/
theorem Fresh.valueType?_opened (hf : f.Fresh tys) {v : ValueId} {ty : LoweredType}
    (h : f.opened.valueType? v = some ty) : ty ∈ tys := by
  have h' : ((f.withLabel.place f.nextBlock).withLabel.value? v).bind Value.ty = some ty := h
  rw [value?_withLabel] at h'
  split at h'
  · cases h'
  · have h'' : (f.withLabel.value? v).bind Value.ty = some ty := h'
    rw [value?_withLabel] at h''
    split at h''
    · cases h''
    · obtain ⟨x, hx, ht⟩ := Option.bind_eq_some_iff.1 h''
      rcases hf.only hx with rfl | ⟨i, t, -, ht', hm⟩
      · cases ht
      · cases ht'.symm.trans ht
        exact hm

theorem Fresh.value?_opened {v : ValueId} {x : Value} (h : f.value? v = some x) : f.opened.value? v = some x :=
  (grows_withLabel.trans ((grows_place f.nextBlock).trans grows_withLabel)).value? h

theorem Fresh.coherent_opened (hf : f.Fresh tys) : f.opened.Coherent := by
  have h₁ : (f.withLabel.place f.nextBlock).Coherent := hf.coherent.withLabel.congr rfl rfl rfl
  exact h₁.withLabel.congr rfl rfl rfl

theorem Fresh.instruction?_opened (hf : f.Fresh tys) (i : InstructionId) : f.opened.instruction? i = none := by
  have : f.opened.instructions = #[] := hf.instructions
  simp [instruction?, this]

end Opened

end Function

namespace Site

variable {u : CompilationUnit} {f : Function} {g g' : Site}

/-- The site at which the body of a function is started.  The end block will rely on `kept`. -/
def opening (u : CompilationUnit) (f : Function) (kept : Set InstructionId) : Site :=
  ⟨⟨u, f.opened, ⟨0⟩, ⟨1⟩, [[]]⟩, fun b => if b = ⟨1⟩ then kept else ∅⟩

theorem opening_sound (hf : f.Fresh f.arguments) (hu : u.Closed) (ha : ∀ ty ∈ f.arguments, u.Knows ty)
    (hr : u.Knows f.returnType) (kept : Set InstructionId) : (opening u f kept).Sound := by
  have hids : f.opened.blockIds = [⟨0⟩] := hf.blockIds_opened
  have hsize : f.opened.blocks.size = 2 := by simp [hf.blocks_opened]
  have noExit : ∀ {b x e}, f.opened.block? b = some x → x.exit = some e → False := by
    intro b x e hx he
    simp [(hf.block?_opened hx).2] at he
  refine ⟨hf.coherent_opened, ?_, hu, ?_, ?_, ?_⟩
  · refine ⟨⟨#[⟨0⟩], ?_⟩, ?_, ?_, ⟨[], hids⟩, ?_, ?_, ?_, ?_⟩
    · simp [opening, Function.opened, Function.withLabel, Function.place, hf.layout, Function.nextBlock, hf.blocks]
    · simp [opening, hids]
    · intro b hb
      simp only [opening, hids, List.mem_singleton] at hb
      simp [opening, hb, hsize]
    · intro b hb hne
      simp only [opening, hids, List.mem_singleton] at hb
      exact absurd hb hne
    · exact fun hx _ => hf.block?_opened hx
    · have hrow : f.opened.row ⟨0⟩ = [] := by
        simp [Function.row, Function.block?, hf.blocks_opened, Block.row]
      have hnone : f.opened.instructions = #[] := hf.instructions
      simp only [opening, hids, Function.rows_singleton, hrow, Function.allInstructions, hnone]
      rfl
    · exact fun _ hx he _ => (noExit hx he).elim
  · refine ⟨ha, hr, fun hv => ha _ (hf.valueType?_opened hv), ?_, ?_, fun hx he _ => (noExit hx he).elim⟩
    · intro i ins hi
      exact absurd hi (by simp [opening, hf.instruction?_opened])
    · intro i ins hi
      exact absurd hi (by simp [opening, hf.instruction?_opened])
  · refine ⟨?_, ?_, ?_⟩
    · intro b hb
      simp only [opening, hids, List.head?_cons, Option.some.injEq] at hb
      subst hb
      simp [opening]
    · rintro b c ⟨x, e, t, hx, he, -⟩
      exact (noExit hx he).elim
    · intro b earlier i hu
      cases hu with
      | operand hx hsplit =>
        simp [(hf.block?_opened hx).1] at hsplit
      | returned hx he | condition hx he => exact (noExit hx he).elim
  · intro p hp
    have : f.opened.literals = [] := hf.literals
    simp [opening, this] at hp

/-! ## The return slot -/

/-- The site with a slot for the returned value. -/
def withReturnSlot (g : Site) (slot : ValueId) : Site :=
  ⟨{ g.state with function := { g.state.function with returnSlot := some slot } }, g.known⟩

theorem grows_withReturnSlot (g : Site) (slot : ValueId) :
    g.state.function.Grows (g.withReturnSlot slot).state.function :=
  ⟨rfl, rfl, rfl, rfl, rfl, rfl, List.prefix_refl _, List.prefix_refl _, List.prefix_refl _,
    fun hx => ⟨_, hx, .refl _⟩⟩

/-- Where returns leave their value is no part of the invariants. -/
theorem Sound.withReturnSlot (hs : g.Sound) (slot : ValueId) : (g.withReturnSlot slot).Sound := by
  have hg := g.grows_withReturnSlot slot
  have hl := hs.laid
  exact ⟨hs.coherent.congr rfl rfl rfl,
    ⟨hl.layout, hl.nodup, hl.inRange, hl.last, hl.closed, hl.blank, hl.order, hl.conditions⟩, hs.closed,
    hs.wellTyped.grow hs.coherent hg (.refl _) Or.inl Or.inl fun hx _ _ => Or.inl hx,
    hs.dominated.grow hl hs.coherent hg rfl (fun _ => rfl) Or.inl, hs.literals⟩

/-- The function knows the end block by its label. -/
def EndLabelled (g : Site) : Prop :=
  ∃ x, g.state.function.block? g.state.endBlock = some x ∧ g.state.function.endLabel = some x.label

theorem EndLabelled.trace (h : g.EndLabelled) (ht : Trace g g') : g'.EndLabelled := by
  obtain ⟨x, hx, hlabel⟩ := h
  have hgrow := ht.function_grows
  obtain ⟨y, hy, hxy⟩ := hgrow.block hx
  exact ⟨y, by rw [ht.endBlock_eq, hy], by rw [hgrow.endLabel, hlabel, hxy.label]⟩

/-- The body of a function is about to be lowered: only the end block waits, and it can read the return slot. -/
structure Started (g : Site) : Prop where
  ready : g.Ready
  waiting : ∀ b, g.state.function.Pending b ↔ b = g.state.endBlock
  returnSlot : ∀ v ∈ g.state.function.returnSlot, ∃ x, g.state.function.value? v = some x ∧
    ∀ i, x.kind = .result i → i ∈ g.known g.state.endBlock
  arguments : ∀ v ∈ g.state.function.argumentValues, g.Usable v
  endLabel : g.EndLabelled

theorem pending_opened {tys : List LoweredType} (hf : f.Fresh tys) (b : BlockId) : f.opened.Pending b ↔ b = ⟨1⟩ := by
  obtain ⟨n⟩ := b
  simp only [Function.Pending, hf.blockIds_opened, hf.blocks_opened, List.mem_singleton, Handle.mk.injEq]
  simp
  omega

theorem Fresh.argument_of_mem {tys : List LoweredType} (hf : f.Fresh tys) {v : ValueId} (hv : v ∈ f.argumentValues) :
    ∃ x, f.value? v = some x ∧ ∀ i, x.kind ≠ .result i := by
  obtain ⟨i, hi, rfl⟩ := Array.getElem_of_mem hv
  have hlt : i < tys.length := by rw [← hf.count]; exact hi
  obtain ⟨w, x, hw, hx, hk, -⟩ := hf.argument (List.getElem?_eq_getElem hlt)
  have : f.argumentValues[i] = w := Option.some.inj ((Array.getElem?_eq_getElem hi).symm.trans hw)
  exact ⟨x, this ▸ hx, by simp [hk]⟩

theorem prepareReturn_started (hf : f.Fresh f.arguments) (hu : u.Closed) (ha : ∀ ty ∈ f.arguments, u.Knows ty)
    (hr : u.Knows f.returnType) {a : Unit} {s' : LoweringState}
    (h : Gives Lowering.prepareReturn ⟨u, f.opened, ⟨0⟩, ⟨1⟩, [[]]⟩ a s') :
    ∃ g, g.state = s' ∧ Started g ∧ u.Extends g.state.unit ∧ f.opened.Grows g.state.function := by
  have hopen : f.opened.IsOpen ⟨0⟩ := ⟨⟨f.nextValue, #[], none⟩, by simp [Function.block?, hf.blocks_opened], rfl⟩
  have hend : f.opened.block? ⟨1⟩ = some ⟨f.withLabel.nextValue, #[], none⟩ := by
    simp [Function.block?, hf.blocks_opened]
  have harg : ∀ {g : Site}, f.opened.Grows g.state.function → ∀ v ∈ g.state.function.argumentValues, g.Usable v := by
    intro g hg v hv
    rw [hg.argumentValues] at hv
    obtain ⟨x, hx, hk⟩ := Fresh.argument_of_mem hf hv
    exact ⟨x, hg.value? (Function.Fresh.value?_opened hx), fun i hi => absurd hi (hk i)⟩
  simp only [Lowering.prepareReturn, gives_get_bind, gives_ite, gives_pure] at h
  rcases h with ⟨hnil, -, rfl⟩ | ⟨hnil, h⟩
  · have hs := opening_sound hf hu ha hr ∅
    have hnone : f.opened.returnSlot = none := hf.returnSlot
    refine ⟨opening u f ∅, rfl, ⟨⟨hs, hopen, ?_, ?_, ?_⟩, pending_opened hf, ?_, harg (.refl _), ⟨_, hend, rfl⟩⟩,
      .refl u, .refl _⟩
    · simp [opening]
    · simp [opening, hnone]
    · exact ⟨(pending_opened hf _).2 rfl, by simp [opening]⟩
    · simp [opening, hnone]
  · have hs := opening_sound hf hu ha hr {f.opened.nextInstruction}
    obtain ⟨slot, s₁, h₁, h₂⟩ := gives_bind.1 h
    have own : Yields (Lowering.emit (.alloca f.returnType 1)) (opening u f {f.opened.nextInstruction}) _ :=
      emit_yields_own hs (by simp [Operation.operands]) (by rintro t n ⟨⟩; exact hr)
    obtain ⟨g₁, rfl, o₁, hnext, x, hx, hk⟩ := own slot s₁ h₁
    simp only [Lowering.gives_inFunction, Function.setReturnSlot, gives_modify] at h₂
    obtain ⟨_, rfl, rfl⟩ := h₂
    have hend₁ : g₁.state.endBlock = ⟨1⟩ := o₁.trace.endBlock_eq
    have hknown : g₁.known ⟨1⟩ = {f.opened.nextInstruction} :=
      o₁.trace.known_eq (b := ⟨1⟩) (Function.block?_lt hend)
    have hpend : ∀ b, g₁.state.function.Pending b ↔ b = ⟨1⟩ := fun b =>
      ⟨fun hb => (pending_opened hf b).1 (o₁.settled hb), fun hb => o₁.waiting ((pending_opened hf b).2 hb)⟩
    have husable : g₁.Usable slot := ⟨x, hx, fun i hi => hk i hi ▸ hnext⟩
    have hgrow : f.opened.Grows g₁.state.function := o₁.trace.function_grows
    obtain ⟨y, hy, hxy⟩ := hgrow.block hend
    have hgrow' := hgrow.trans (g₁.grows_withReturnSlot slot)
    refine ⟨g₁.withReturnSlot slot, rfl, ⟨⟨(o₁.trace.sound hs).withReturnSlot slot, o₁.isOpen, ?_, ?_, ?_⟩, ?_, ?_,
      harg hgrow', ?_⟩, o₁.trace.unit_extends, hgrow'⟩
    · have hscopes : g₁.state.scopes = [[]] := o₁.scopes
      simp [withReturnSlot, hscopes]
    · rintro v ⟨⟩
      exact husable
    · show g₁.CanReach g₁.state.endBlock
      rw [hend₁]
      exact ⟨(hpend _).2 rfl, by rw [hknown]; rintro _ rfl; exact hnext⟩
    · show ∀ b, g₁.state.function.Pending b ↔ b = g₁.state.endBlock
      rw [hend₁]
      exact hpend
    · rintro v ⟨⟩
      refine ⟨x, hx, fun i hi => ?_⟩
      show i ∈ g₁.known g₁.state.endBlock
      rw [hend₁, hknown, hk i hi]
      rfl
    · refine ⟨y, ?_, ?_⟩
      · show g₁.state.function.block? g₁.state.endBlock = some y
        rw [hend₁, hy]
      · show g₁.state.function.endLabel = some y.label
        rw [hgrow.endLabel, hxy.label]
        rfl

/-! ## The body -/

/-- An argument is copied into a slot, which gets the name of the parameter. -/
theorem gives_spillArguments_cons {name : String} {position : Nat} {param : Param} {params : List Param}
    {s s' : LoweringState} {a : Unit} (h : Gives (Lowering.spillArguments name position (param :: params)) s a s') :
    ∃ argument ty slot s₁ s₂ s₃, s.function.argumentValue? position = some argument ∧
      s.function.operandType argument = .ok ty ∧ Gives (Lowering.alloca ty.pointee) s slot s₁ ∧
      Gives (Lowering.store slot argument) s₁ () s₂ ∧ Gives (Lowering.define param.name slot) s₂ () s₃ ∧
      Gives (Lowering.spillArguments name (position + 1) params) s₃ a s' := by
  simp only [Lowering.spillArguments, gives_get_bind, gives_need_bind] at h
  obtain ⟨argument, harg, h⟩ := h
  simp only [gives_bind, Lowering.gives_typeOf] at h
  obtain ⟨ty, _, ⟨hty, rfl⟩, slot, s₁, h₁, _, s₂, h₂, _, s₃, h₃, h⟩ := h
  exact ⟨argument, ty, slot, s₁, s₂, s₃, harg, hty, h₁, h₂, h₃, h⟩

theorem spill_advances (hr : g.Ready) (ha : ∀ v ∈ g.state.function.argumentValues, g.Usable v) {position : Nat}
    {argument slot : ValueId} {ty : LoweredType} {name : String} {s₁ s₂ s₃ : LoweringState}
    (harg : g.state.function.argumentValue? position = some argument)
    (hty : g.state.function.operandType argument = .ok ty) (h₁ : Gives (Lowering.alloca ty.pointee) g.state slot s₁)
    (h₂ : Gives (Lowering.store slot argument) s₁ () s₂) (h₃ : Gives (Lowering.define name slot) s₂ () s₃) :
    ∃ g₁ g₂ g₃, g₁.state = s₁ ∧ g₂.state = s₂ ∧ g₃.state = s₃ ∧ Onward g g₁ ∧ Onward g₁ g₂ ∧ Advances g₂ g₃ ∧
      g₃.Ready ∧ g.here ⊆ g₃.here ∧ ∀ v ∈ g₃.state.function.argumentValues, g₃.Usable v := by
  have husable : g.Usable argument := ha argument (Array.mem_of_getElem? harg)
  have hknows := (hr.sound.wellTyped.values (Function.operandType_eq_ok_iff_valueType?.1 hty)).pointee
  obtain ⟨g₁, rfl, o₁, hs⟩ := alloca_yields hr.sound hknows slot s₁ h₁
  have hr₁ := o₁.ready hr
  obtain ⟨g₂, rfl, o₂, -⟩ := store_yields hr₁ hs (o₁.usable husable) _ s₂ h₂
  obtain ⟨g₃, rfl, a₃, hr₃, hh₃⟩ := define_advances (o₂.ready hr₁) (o₂.usable hs) h₃
  have hh : g.here ⊆ g₃.here := (o₁.here.trans o₂.here).trans hh₃
  have hgrow := (o₁.trans o₂).trace.function_grows.trans a₃.trace.function_grows
  refine ⟨g₁, g₂, g₃, rfl, rfl, rfl, o₁, o₂, a₃, hr₃, hh, fun v hv => ?_⟩
  rw [hgrow.argumentValues] at hv
  exact (ha v hv).mono hgrow hh

theorem spillArguments_advances {name : String} (params : List Param) : ∀ {position : Nat} {g : Site} {a : Unit}
    {s' : LoweringState}, g.Ready → (∀ v ∈ g.state.function.argumentValues, g.Usable v) →
    Gives (Lowering.spillArguments name position params) g.state a s' →
    ∃ g', g'.state = s' ∧ Advances g g' ∧ g'.Ready := by
  induction params with
  | nil =>
    intro position g a s' hr _ h
    obtain ⟨-, rfl⟩ := gives_pure.1 h
    exact ⟨g, rfl, (Onward.refl hr.isOpen).advances hr, hr⟩
  | cons param params ih =>
    intro position g a s' hr ha h
    obtain ⟨argument, ty, slot, s₁, s₂, s₃, harg, hty, h₁, h₂, h₃, h⟩ := gives_spillArguments_cons h
    obtain ⟨g₁, g₂, g₃, rfl, rfl, rfl, o₁, o₂, a₃, hr₃, hh, ha₃⟩ := spill_advances hr ha harg hty h₁ h₂ h₃
    obtain ⟨g₄, rfl, a₄, hr₄⟩ := ih hr₃ ha₃ h
    have ho := o₁.trans o₂
    exact ⟨g₄, rfl, ((ho.advances hr).trans a₃ ho.here).trans a₄ hh, hr₄⟩

/-- The definition of a function is complete. -/
structure Done (g : Site) : Prop where
  sound : g.Sound
  placed : ∀ b, ¬ g.state.function.Pending b
  returns : ∃ x j, g.state.function.block? g.state.current = some x ∧ x.exit = some (.give j) ∧
    g.state.function.endLabel = some x.label

/-- The end block is the current one and the only thing left to do. -/
structure Ending (g : Site) : Prop where
  sound : g.Sound
  current : g.state.current = g.state.endBlock
  placed : ∀ b, ¬ g.state.function.Pending b
  endLabel : g.EndLabelled

/-- The end block returns. -/
theorem Ending.setReturn (he : Ending g) (hu : u.Upholds g.state.unit) {value : Option ValueId}
    (huse : ∀ v ∈ value, g.Usable v) {a : Unit} {s' : LoweringState}
    (h : Gives (Lowering.inFunction (Function.setReturn u g.state.current value)) g.state a s') :
    ∃ g', g'.state = s' ∧ Done g' ∧ Trace g g' := by
  obtain ⟨f, hf, rfl⟩ := Lowering.gives_inFunction.1 h
  obtain ⟨x, ty, hx, hopen, hty, -, rfl⟩ := Function.setReturn_gives hf
  have htypes : g.state.function.Types g.state.unit (.give value) none := by
    have ht := (Function.resultType_eq_ok_iff.1 hty).mono (.refl _) hu
    generalize ho : Operation.give value = op at ht ⊢
    cases ht with
    | giveNothing hn => exact .giveNothing hn
    | give hv => exact .give hv
    | _ => cases ho
  have hstep : Step g _ := .give (s := g.state) (k := g.known) he.current hx hopen htypes huse
  refine ⟨_, rfl, ⟨hstep.sound he.sound, ?_, ?_⟩, .single hstep⟩
  · intro b hb
    refine he.placed b ?_
    simpa [Function.Pending, Function.withReturn, Function.withExit, Function.put, Function.blockIds,
      Function.withInstruction] using hb
  · obtain ⟨y, hy, hl⟩ := he.endLabel
    rw [← he.current, hx] at hy
    cases hy
    exact ⟨{ x with exit := some (.give g.state.function.nextInstruction) }, _,
      by rw [Function.block?_withReturn hx, if_pos rfl], rfl, hl⟩

theorem Ending.finishReturn (he : Ending g) (hslot : ∀ v ∈ g.state.function.returnSlot, g.Usable v) {a : Unit}
    {s' : LoweringState} (h : Gives Lowering.finishReturn g.state a s') :
    ∃ g', g'.state = s' ∧ Done g' ∧ Trace g g' := by
  simp only [Lowering.finishReturn, gives_get_bind] at h
  cases hret : g.state.function.returnSlot with
  | none =>
    rw [hret] at h
    have h' : Gives (Lowering.inFunction (Function.setReturn g.state.unit g.state.current none)) g.state a s' := by
      simpa using h
    exact he.setReturn (.refl _) (by simp) h'
  | some slot =>
    rw [hret] at h
    simp only [gives_bind, gives_pure] at h
    obtain ⟨v, s₁, hread, _, _, ⟨rfl, rfl⟩, h⟩ := h
    have husable : g.Usable slot := hslot slot (by simp [hret])
    obtain ⟨g₁, rfl, ho, hv⟩ :=
      emit_yields he.sound (by simpa [Operation.operands] using husable) (by simp) v s₁ hread
    obtain ⟨f₁, -, hsame⟩ := Lowering.gives_emit.1 hread
    have hcur : g₁.state.current = g.state.current := by rw [← hsame]
    have he₁ : Ending g₁ := ⟨ho.trace.sound he.sound, by rw [hcur, he.current, ho.trace.endBlock_eq],
      fun b hb => he.placed b (ho.settled hb), he.endLabel.trace ho.trace⟩
    rw [← hcur] at h
    obtain ⟨g₂, rfl, hd, ht⟩ := he₁.setReturn ho.trace.unit_extends.upholds (by rintro w ⟨⟩; exact hv) h
    exact ⟨g₂, rfl, hd, ho.trace.trans ht⟩

/-- The end block is gone to and returns what is in the return slot. -/
theorem finish_done {o : Site} (hst : Started o) (ht : Trace o g)
    (hclosed : g.state.function.IsClosed g.state.current)
    (hpend : ∀ b, g.state.function.Pending b ↔ b = o.state.endBlock) {a : Unit} {s' : LoweringState}
    (h : Gives (do Lowering.startBlock o.state.endBlock; Lowering.finishReturn) g.state a s') :
    ∃ g', g'.state = s' ∧ Done g' ∧ Trace g g' := by
  obtain ⟨_, _, h₁, h₂⟩ := gives_bind.1 h
  obtain ⟨f, hf, rfl⟩ := Lowering.gives_startBlock.1 h₁
  obtain ⟨l, hlay, -, rfl⟩ := Function.appendBlock_gives hf
  have hstep : Step g _ := .start (s := g.state) (k := g.known) hlay ((hpend _).2 rfl) hclosed
  have htrace : Trace o _ := ht.tail hstep
  have he : Ending _ := ⟨hstep.sound (ht.sound hst.ready.sound), htrace.endBlock_eq.symm, fun b hb => ?_,
    hst.endLabel.trace htrace⟩
  · obtain ⟨g', rfl, hd, ht'⟩ := he.finishReturn (fun v hv => by
      rw [htrace.returnSlot_eq] at hv
      obtain ⟨x, hx, hk⟩ := hst.returnSlot v hv
      refine ⟨x, htrace.function_grows.value? hx, fun i hi => Or.inl ?_⟩
      show i ∈ g.known o.state.endBlock
      rw [ht.known_eq hst.ready.ending.1.1]
      exact hk i hi) h₂
    exact ⟨g', rfl, hd, (Relation.ReflTransGen.single hstep).trans ht'⟩
  · have hb' : (g.state.function.place o.state.endBlock).Pending b := hb
    rw [Function.Pending, Function.blockIds_place hlay, List.mem_append, not_or] at hb'
    exact hb'.2.2 (List.mem_singleton.2 ((hpend b).1 ⟨hb'.1, hb'.2.1⟩))

/-- The course of lowering the body of a function, from the state `s` on: the return slot is made, the arguments are
spilled, the body is lowered, whatever is left of control goes to the end block, and the end block returns. -/
structure Course (item : FunctionItem) (s : LoweringState) (g₁ g₂ g₃ g₄ g : Site) : Prop where
  prepared : Gives Lowering.prepareReturn s () g₁.state
  started : g₁.Started
  spilled : Gives (Lowering.spillArguments item.signature.name 0 item.signature.params) g₁.state () g₂.state
  ready : g₂.Ready
  lowered : Gives (Lowering.lowerBody item.body) g₂.state () g₃.state
  left : Gives (Lowering.branchTo g₁.state.endBlock) g₃.state () g₄.state
  pending : g₄.state.function.Pending g₁.state.endBlock
  finished : Gives (do Lowering.startBlock g₁.state.endBlock; Lowering.finishReturn) g₄.state () g.state
  done : g.Done
  trace₁ : Trace g₁ g₂
  trace₂ : Trace g₂ g₃
  trace₃ : Trace g₃ g₄
  trace₄ : Trace g₄ g

/-- **Lowering the body of a function completes its definition.** -/
theorem lowerFunctionBody_course (hf : f.Fresh f.arguments) (hu : u.Closed) (ha : ∀ ty ∈ f.arguments, u.Knows ty)
    (hr : u.Knows f.returnType) {item : FunctionItem} {a : Unit} {s' : LoweringState}
    (h : Gives (Lowering.lowerFunctionBody item) ⟨u, f.opened, ⟨0⟩, ⟨1⟩, [[]]⟩ a s') :
    ∃ g₁ g₂ g₃ g₄ g, g.state = s' ∧ Course item ⟨u, f.opened, ⟨0⟩, ⟨1⟩, [[]]⟩ g₁ g₂ g₃ g₄ g ∧
      u.Extends g₁.state.unit ∧ f.opened.Grows g₁.state.function := by
  simp only [Lowering.lowerFunctionBody, gives_bind (x := Lowering.prepareReturn),
    gives_bind (x := Lowering.spillArguments _ _ _), gives_bind (x := Lowering.lowerBody _), gives_get_bind,
    gives_bind (x := Lowering.branchTo _)] at h
  obtain ⟨_, _, h₁, _, _, h₂, _, _, h₃, _, _, h₄, h⟩ := h
  obtain ⟨g₁, rfl, hst, hext, hgrow⟩ := prepareReturn_started hf hu ha hr h₁
  obtain ⟨g₂, rfl, a₂, hr₂⟩ := spillArguments_advances _ hst.ready hst.arguments h₂
  obtain ⟨g₃, rfl, p₃⟩ := lowerBody_passes item.body hr₂ h₃
  have hend₂ : g₂.state.endBlock = g₁.state.endBlock := a₂.trace.endBlock_eq
  have t₃ : Trace g₂ g₃ := p₃.elim (fun o₃ => o₃.trace) fun l₃ => l₃.trace
  have hend₃ : g₃.state.endBlock = g₁.state.endBlock := t₃.endBlock_eq.trans hend₂
  -- whatever is left of control goes to the end block
  obtain ⟨g₄, rfl, l₄, t₄⟩ : ∃ g₄, g₄.state = _ ∧ Leaves g₂ g₄ ∧ Trace g₃ g₄ := by
    rcases p₃ with o₃ | l₃
    · obtain ⟨g₄, hg₄, l₄⟩ := branchTo_leaves (o₃.ready hr₂) (o₃.ready hr₂).ending h₄
      exact ⟨g₄, hg₄, o₃.leaves l₄, l₄.trace⟩
    · exact ⟨g₃, (branchTo_of_closed l₃.closed h₄).symm, l₃, .refl⟩
  rw [hend₃] at h h₄
  have hpend : ∀ b, g₄.state.function.Pending b ↔ b = g₁.state.endBlock := fun b =>
    ⟨fun hb => (hst.waiting b).1 (a₂.settled (l₄.settled hb)),
      fun hb => l₄.waiting (a₂.waiting ((hst.waiting b).2 hb))⟩
  obtain ⟨g₅, rfl, hd, t₅⟩ := finish_done hst (a₂.trace.trans l₄.trace) l₄.closed hpend h
  exact ⟨g₁, g₂, g₃, g₄, g₅, rfl, ⟨h₁, hst, h₂, hr₂, h₃, h₄, (hpend _).2 rfl, h, hd, a₂.trace, t₃, t₄, t₅⟩, hext,
    hgrow⟩

theorem Course.trace {item : FunctionItem} {s : LoweringState} {g₁ g₂ g₃ g₄ : Site}
    (h : Course item s g₁ g₂ g₃ g₄ g) : Trace g₁ g :=
  h.trace₁.trans (h.trace₂.trans (h.trace₃.trans h.trace₄))

end Site

end BlockForm
