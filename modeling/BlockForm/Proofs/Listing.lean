import BlockForm.Proofs.ByValue
import BlockForm.Proofs.Expressions
import BlockForm.Proofs.Simulation

/-!
# BlockForm.Proofs.Listing — the code that a step of lowering adds

`LoweringState.Adds s s' code`: read in layout order, the instructions of `s'` are those of `s` and then `code`.  Blocks
are filled in the order in which they are placed, so every run that goes onward adds some code.

An address is fresh at a site (`Site.Fresh`) if the next instruction can read it and nothing that lowering may look up
leads to it.  Whoever is not handed a fresh address adds no code that mentions it (`Site.Fresh.keeps`), however deep the
run goes.  Storing at such an address mentions it once (`Site.Fresh.store`).
-/

namespace BlockForm

open Action

/-- Looking every position up gives the list. -/
theorem filterMap_range_getElem? {α : Type} (l : List α) : (List.range l.length).filterMap (fun i => l[i]?) = l := by
  induction l with
  | nil => rfl
  | cons a l ih => simpa [List.range_succ_eq_map, List.filterMap_map, Function.comp_def] using ih

/-- The value is an operand of the instruction. -/
def Instruction.mentions (v : ValueId) (ins : Instruction) : Bool := ins.operation.operands.contains v

@[simp] theorem Instruction.mentions_objMemberAt (v m r : ValueId) (i : Nat) :
    mentions v ⟨.objMemberAt m i, r⟩ = decide (v = m) := by simp [mentions, Operation.operands]

@[simp] theorem Instruction.mentions_write (v m c r : ValueId) :
    mentions v ⟨.write m c, r⟩ = (decide (v = m) || decide (v = c)) := by simp [mentions, Operation.operands]

/-- The instructions of the placed blocks, in layout order. -/
def Function.listing (f : Function) : List Instruction := (f.rows f.blockIds).filterMap f.instruction?

namespace LoweringState

variable {s s' s'' : LoweringState} {code code' : List Instruction}

/-- The instructions are listed in the order in which they were made. -/
theorem Laid.listing_eq (h : s.Laid) : s.function.listing = s.function.instructions.toList := by
  rw [Function.listing, h.order, Function.allInstructions, List.filterMap_map, ← Array.length_toList]
  simpa [Function.comp_def, Function.instruction?] using filterMap_range_getElem? s.function.instructions.toList

/-- The instructions that `s'` has after those of `s`, in layout order. -/
def Adds (s s' : LoweringState) (code : List Instruction) : Prop :=
  s'.function.listing = s.function.listing ++ code

theorem Adds.trans (h₁ : s.Adds s' code) (h₂ : s'.Adds s'' code') : s.Adds s'' (code ++ code') := by
  rw [Adds, h₂, h₁, List.append_assoc]

theorem adds_iff (hs : s.Laid) (hs' : s'.Laid) :
    s.Adds s' code ↔ s'.function.instructions.toList = s.function.instructions.toList ++ code := by
  rw [Adds, hs.listing_eq, hs'.listing_eq]

end LoweringState

namespace Site

variable {g g' : Site} {m v slot : ValueId} {code : List Instruction} {s' : LoweringState} {α : Type}

/-! ## Added code -/

theorem Onward.exists_adds (h : Onward g g') (hs : g.Sound) : ∃ code, g.state.Adds g'.state code := by
  obtain ⟨code, hcode⟩ := h.trace.function_grows.instructions
  exact ⟨code, (LoweringState.adds_iff hs.laid (h.trace.sound hs).laid).2 hcode.symm⟩

theorem Onward.adds_nil (h : Onward g g') (hs : g.Sound)
    (heq : g'.state.function.instructions = g.state.function.instructions) : g.state.Adds g'.state [] := by
  rw [LoweringState.adds_iff hs.laid (h.trace.sound hs).laid, heq, List.append_nil]

theorem Onward.adds_emit (h : Onward g g') (hs : g.Sound) {op : Operation}
    (hemit : Gives (Lowering.emit op) g.state v g'.state) : g.state.Adds g'.state [⟨op, v⟩] := by
  rw [LoweringState.adds_iff hs.laid (h.trace.sound hs).laid]
  obtain ⟨x, ty, -, -, -, rfl, heq⟩ := Lowering.emit_gives hemit
  rw [heq]
  show (g.state.function.withInstruction op ty).instructions.toList = _
  rw [Function.instructions_withInstruction, Array.toList_push]

/-- Code that reads a value no more often than before does not mention it. -/
theorem mentions_of_gains (hs : g.Sound) (hs' : g'.Sound) (hadds : g.state.Adds g'.state code)
    (hgains : g.state.function.Gains v 0 g'.state.function) : code.filter (·.mentions v) = [] := by
  have hreads := hgains.reads
  rw [LoweringState.adds_iff hs.laid hs'.laid] at hadds
  rw [Function.reads, Function.reads, hadds, List.flatMap_append, List.count_append] at hreads
  have hzero : (code.flatMap fun ins => ins.operation.operands).count v = 0 := by omega
  rw [List.filter_eq_nil_iff]
  intro ins hins hmem
  refine List.count_eq_zero.1 hzero (List.mem_flatMap.2 ⟨ins, hins, ?_⟩)
  simpa [Instruction.mentions] using hmem

/-- Code mentions no value that is made after it. -/
theorem mentions_of_le (hs : g.Sound) (hs' : g'.Sound) (hadds : g.state.Adds g'.state code)
    (hv : g'.state.function.values.size ≤ v.index) : code.filter (·.mentions v) = [] := by
  rw [LoweringState.adds_iff hs.laid hs'.laid] at hadds
  rw [List.filter_eq_nil_iff]
  intro ins hins hmem
  have hins' : ins ∈ g'.state.function.instructions := by
    rw [← Array.mem_toList_iff, hadds]
    exact List.mem_append_right _ hins
  obtain ⟨i, hi⟩ := Array.mem_iff_getElem?.1 hins'
  obtain ⟨x, hx, -⟩ := hs'.coherent.reads (i := ⟨i⟩) hi v (by simpa [Instruction.mentions] using hmem)
  exact absurd (Function.value?_lt hx) (Nat.not_lt_of_le hv)

/-! ## Fresh addresses -/

theorem Usable.lt (h : g.Usable v) : v.index < g.state.function.values.size := by
  obtain ⟨x, hx, -⟩ := h
  exact Function.value?_lt hx

/-- The address can be read here, and nothing that lowering looks up leads to it. -/
structure Fresh (g : Site) (m : ValueId) : Prop where
  ready : g.Ready
  usable : g.Usable m
  apart : g.state.Owns (· ≠ m)

theorem Fresh.onward (hf : g.Fresh m) (ho : Onward g g') (h : g'.state.Owns (· ≠ m)) : g'.Fresh m :=
  ⟨ho.ready hf.ready, ho.usable hf.usable, h⟩

/-- The result of an instruction is fresh: what lowering can look up has been made before it. -/
theorem Ready.fresh_of_emit (hr : g.Ready) {op : Operation} (ho : Onward g g') (hv : g'.Usable v)
    (h : Gives (Lowering.emit op) g.state v g'.state) (hnil : v ≠ Function.nilValue) :
    g'.Fresh v ∧ v = g.state.function.nextValue := by
  have hr' := ho.ready hr
  obtain ⟨x, ty, hx, hopen, -, hres, heq⟩ := Lowering.emit_gives h
  cases ty with
  | none => exact absurd hres hnil
  | some ty =>
    have hnew : v = g.state.function.nextValue := hres
    have earlier : ∀ {w}, g.Usable w → w ≠ v := by
      rintro w hw rfl
      have hlt := hw.lt
      rw [hnew] at hlt
      exact Nat.lt_irrefl _ hlt
    have hresult : g'.state.function.value? v =
        some ⟨.result g.state.function.nextInstruction, some ty, g.state.function.variableName⟩ := by
      rw [heq]
      show (g.state.function.withInstruction op (some ty)).value? v = _
      rw [Function.value?_withInstruction, if_pos ⟨rfl, hnew⟩]
    refine ⟨⟨hr', hv, ⟨hnil.symm, ?_, ?_, ?_, ?_⟩, ?_⟩, hnew⟩
    · rintro w hw rfl
      exact absurd hv.lt (Nat.not_lt_of_le hw)
    · rintro w b hw rfl
      rw [Function.labelTarget?, hresult] at hw
      cases hw
    · rintro p hp rfl
      obtain ⟨y, hy, hkind⟩ := hr'.sound.literals p hp
      rw [hresult] at hy
      cases hy
      exact hkind _ rfl
    · intro slot hslot
      rw [ho.trace.returnSlot_eq] at hslot
      exact earlier (hr.returnSlot slot hslot)
    · intro scope hscope p hp
      rw [ho.scopes] at hscope
      exact earlier (hr.slots scope hscope p hp)

theorem Fresh.emit (hf : g.Fresh m) {op : Operation} (ho : Onward g g')
    (h : Gives (Lowering.emit op) g.state v g'.state) : v ≠ m ∧ g'.Fresh m := by
  obtain ⟨hne, howns⟩ := Lowering.owns_of_emit hf.apart h
  exact ⟨hne, hf.onward ho howns⟩

/-- **A run that is not handed a fresh address adds no code that mentions it**, and the address stays fresh. -/
theorem Fresh.keeps {x : Lowering α} {P : α → Prop} {a : α} (hf : g.Fresh m) (hx : Lowering.Made (· ≠ m) x P)
    (h : Gives x g.state a g'.state) (ho : Onward g g') (hadds : g.state.Adds g'.state code) :
    P a ∧ g'.Fresh m ∧ code.filter (·.mentions m) = [] := by
  obtain ⟨ha, howns, hgains⟩ := hx.keeps hf.apart h
  have hf' := hf.onward ho howns
  exact ⟨ha, hf', mentions_of_gains hf.ready.sound hf'.ready.sound hadds (hgains (fun hne => hne rfl))⟩

end Site

/-! ## Stores -/

/-- How a value is made one of the type that is stored: it has the type, it is a constant that is made again with the
type, it is converted, or it is the address of a composite, which is read. -/
inductive Function.StoredAs (f : Function) (ty : LoweredType) (v : ValueId) : List Instruction → ValueId → Prop where
  | same (hv : f.valueType? v = some ty) : StoredAs f ty v [] v
  | retyped {k c : Constant} {e : Elementary} {w : ValueId} (hv : f.constant? v = some k) (hty : ty = .elementary e)
      (hk : k.retyped? e = some c) (hw : f.constant? w = some c) : StoredAs f ty v [] w
  | converted {source : LoweredType} {w : ValueId} (hv : f.valueType? v = some source) (hne : source ≠ ty)
      (hscalar : source.isScalar = true ∧ ty.isScalar = true) : StoredAs f ty v [⟨.convert v ty, w⟩] w
  | read {w : ValueId} (hty : ty.isComposite = true) (hv : f.valueType? v = some ty.pointerTo) :
      StoredAs f ty v [⟨.read v, w⟩] w

theorem Function.Grows.constant?_eq_some {f g : Function} (hg : f.Grows g) {v : ValueId} {c : Constant}
    (h : f.constant? v = some c) : g.constant? v = some c := by
  obtain ⟨x, hx, -⟩ := Option.bind_eq_some_iff.1 h
  rw [hg.constant? hx, h]

theorem Function.StoredAs.grow {f h : Function} {ty : LoweredType} {v w : ValueId} {code : List Instruction}
    (hs : f.StoredAs ty v code w) (hg : f.Grows h) : h.StoredAs ty v code w := by
  cases hs with
  | same hv => exact .same (hg.valueType? hv)
  | retyped hv hty hk hw => exact .retyped (hg.constant?_eq_some hv) hty hk (hg.constant?_eq_some hw)
  | converted hv hne hscalar => exact .converted (hg.valueType? hv) hne hscalar
  | read hty hv => exact .read hty (hg.valueType? hv)

/-- A constant is a value of its type, and no code. -/
theorem Lowering.constant_made {c : Constant} {e : Elementary} {v : ValueId} {s s' : LoweringState}
    (h : Gives (constant c e) s v s') :
    s'.function.constant? v = some c ∧ s'.function.valueType? v = some (.elementary e) ∧
      s'.function.instructions = s.function.instructions := by
  obtain ⟨f, hf, rfl⟩ := gives_inFunction.1 h
  obtain ⟨-, rfl, rfl⟩ := Function.constant_gives.1 hf
  have hvalue := Function.value?_withValue (f := s.function) ⟨.constant c, some (.elementary e), c.text⟩
    s.function.nextValue
  rw [if_pos rfl] at hvalue
  exact ⟨Option.bind_eq_some_iff.2 ⟨_, hvalue, rfl⟩, Option.bind_eq_some_iff.2 ⟨_, hvalue, rfl⟩, rfl⟩

theorem Lowering.retypedConstant?_eq_some {f : Function} {v : ValueId} {target : LoweredType} {c : Constant}
    {e : Elementary} (h : retypedConstant? f v target = some (c, e)) :
    ∃ k, f.constant? v = some k ∧ target = .elementary e ∧ k.retyped? e = some c := by
  unfold retypedConstant? at h
  split at h
  · cases h
  · next hp =>
    split at h
    · next k e' hk he =>
      obtain ⟨c', hc, hpair⟩ := Option.map_eq_some_iff.1 h
      cases hpair
      refine ⟨k, hk, ?_, hc⟩
      obtain ⟨kind, pointer⟩ := target
      cases kind with
      | elementary e'' =>
        cases he
        simpa [LoweredType.elementary] using hp
      | composite id => cases he
    · cases h

theorem LoweredType.pointerTo_pointee {ty : LoweredType} (h : ty.isPointer = true) : ty.pointee.pointerTo = ty := by
  obtain ⟨kind, pointer⟩ := ty
  cases h
  rfl

/-- A store makes the content and writes it. -/
theorem Lowering.store_steps {slot v : ValueId} {s s' : LoweringState} {a : Unit} (h : Gives (store slot v) s a s') :
    ∃ slotTy ty content s₁, s.function.valueType? slot = some slotTy ∧ s.function.valueType? v = some ty ∧
      ((ty.isComposite = true ∧ ty.isPointer = true ∧ ty.sameKind slotTy = true ∧
          Gives (emit (.read v)) s content s₁) ∨ Gives (coerce v slotTy.pointee) s content s₁) ∧
      Gives (emit (.write slot content)) s₁ Function.nilValue s' := by
  simp only [store, gives_bind (x := typeOf _), gives_typeOf, Function.operandType_eq_ok_iff_valueType?] at h
  obtain ⟨slotTy, _, ⟨hslot, rfl⟩, ty, _, ⟨hty, rfl⟩, h⟩ := h
  split at h
  · next hcond =>
    simp only [Bool.and_eq_true] at hcond
    simp only [gives_bind, gives_pure] at h
    obtain ⟨content, s₁, hread, r, _, hwrite, -, rfl⟩ := h
    obtain rfl := write_gives hwrite
    exact ⟨slotTy, ty, content, s₁, hslot, hty, Or.inl ⟨hcond.1.1, hcond.1.2, hcond.2, hread⟩, hwrite⟩
  · simp only [gives_bind, gives_pure] at h
    obtain ⟨content, s₁, hcoerce, r, _, hwrite, -, rfl⟩ := h
    obtain rfl := write_gives hwrite
    exact ⟨slotTy, ty, content, s₁, hslot, hty, Or.inr hcoerce, hwrite⟩

namespace Site

variable {g g' : Site} {v slot : ValueId}

theorem coerce_storedAs (hr : g.Ready) (hv : g.Usable v) {target : LoweredType} {w : ValueId} {s' : LoweringState}
    (h : Gives (Lowering.coerce v target) g.state w s') :
    ∃ g' code, g'.state = s' ∧ Onward g g' ∧ g'.Usable w ∧ g.state.Adds g'.state code ∧
      g'.state.function.StoredAs target v code w := by
  obtain ⟨g', rfl, ho, hw⟩ := coerce_yields hr hv target w s' h
  have hgrows := ho.trace.function_grows
  obtain ⟨ty, hty, hcases⟩ := Machine.coerce_gives h
  rw [Function.operandType_eq_ok_iff_valueType?] at hty
  rcases hcases with ⟨rfl, rfl, heq⟩ | ⟨-, c, e, hretyped, hconst⟩ | ⟨hne, -, hs, ht, hemit⟩
  · exact ⟨g', [], rfl, ho, hw, ho.adds_nil hr.sound (by rw [heq]), .same (hgrows.valueType? hty)⟩
  · obtain ⟨k, hk, rfl, hc⟩ := Lowering.retypedConstant?_eq_some hretyped
    obtain ⟨hnew, -, hcode⟩ := Lowering.constant_made hconst
    exact ⟨g', [], rfl, ho, hw, ho.adds_nil hr.sound hcode, .retyped (hgrows.constant?_eq_some hk) rfl hc hnew⟩
  · exact ⟨g', _, rfl, ho, hw, ho.adds_emit hr.sound hemit, .converted (hgrows.valueType? hty) hne ⟨hs, ht⟩⟩

/-- **A value is stored at a fresh address** by code that mentions the address once, to write there. -/
theorem Fresh.store (hf : g.Fresh slot) (hv : g.Usable v) (hne : v ≠ slot) {a : Unit} {s' : LoweringState}
    (h : Gives (Lowering.store slot v) g.state a s') :
    ∃ g' ty conversion content, g'.state = s' ∧ Onward g g' ∧ g'.Fresh slot ∧
      g.state.Adds g'.state (conversion ++ [⟨.write slot content, Function.nilValue⟩]) ∧
      conversion.filter (·.mentions slot) = [] ∧ content ≠ slot ∧
      g'.state.function.valueType? slot = some ty.pointerTo ∧ g'.state.function.StoredAs ty v conversion content := by
  have hr := hf.ready
  obtain ⟨slotTy, ty, content, s₁, hslot, hty, hcontent, hwrite⟩ := Lowering.store_steps h
  have made : ∃ g₁ conversion, g₁.state = s₁ ∧ Onward g g₁ ∧ g₁.Usable content ∧ content ≠ slot ∧ g₁.Fresh slot ∧
      g.state.Adds g₁.state conversion ∧ conversion.filter (·.mentions slot) = [] ∧
      (slotTy.isPointer = true → g₁.state.function.StoredAs slotTy.pointee v conversion content) := by
    rcases hcontent with ⟨hcomposite, hpointer, hkind, hread⟩ | hcoerce
    · obtain ⟨g₁, rfl, ho, hu⟩ := emit_yields hr.sound (by simpa [Operation.operands] using hv) (by simp) content s₁
        hread
      have hadds := ho.adds_emit hr.sound hread
      obtain ⟨hc, hf₁, hno⟩ := hf.keeps (.emit_one rfl hne) hread ho hadds
      refine ⟨g₁, _, rfl, ho, hu, hc, hf₁, hadds, hno, fun hp => ?_⟩
      have hsame : ty = slotTy := by
        obtain ⟨kind, pointer⟩ := ty
        obtain ⟨kind', pointer'⟩ := slotTy
        cases hp
        cases hpointer
        simpa [LoweredType.sameKind] using hkind
      subst hsame
      refine .read (by simpa [LoweredType.isComposite, LoweredType.typedef?, LoweredType.pointee] using hcomposite) ?_
      rw [ho.trace.function_grows.valueType? hty, LoweredType.pointerTo_pointee hp]
    · obtain ⟨g₁, conversion, rfl, ho, hu, hadds, hstored⟩ := coerce_storedAs hr hv hcoerce
      obtain ⟨hc, hf₁, hno⟩ := hf.keeps (.coerce (by exact hne) _) hcoerce ho hadds
      exact ⟨g₁, conversion, rfl, ho, hu, hc, hf₁, hadds, hno, fun _ => hstored⟩
  obtain ⟨g₁, conversion, rfl, ho₁, hu, hc, hf₁, hadds, hno, hstored⟩ := made
  obtain ⟨g', rfl, ho', -⟩ := emit_yields hf₁.ready.sound (by simpa [Operation.operands] using ⟨hf₁.usable, hu⟩)
    (by simp) _ s' hwrite
  have hpointer : slotTy.isPointer = true := by
    obtain ⟨_, htypes, -⟩ := Machine.emit_types hwrite
    cases htypes with
    | write hmemory hp =>
      rw [ho₁.trace.function_grows.valueType? hslot] at hmemory
      cases hmemory
      exact hp
  have hgrows := ho₁.trace.function_grows.trans ho'.trace.function_grows
  refine ⟨g', slotTy.pointee, conversion, content, rfl, ho₁.trans ho', (hf₁.emit ho' hwrite).2,
    hadds.trans (ho'.adds_emit hf₁.ready.sound hwrite), hno, hc, ?_, (hstored hpointer).grow ho'.trace.function_grows⟩
  rw [hgrows.valueType? hslot, LoweredType.pointerTo_pointee hpointer]

end Site

end BlockForm
