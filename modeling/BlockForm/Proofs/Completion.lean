import Mathlib.Algebra.GroupWithZero.Nat
import BlockForm.Proofs.Registry

/-!
# BlockForm.Proofs.Completion — steps that succeed

`Completes x s Q`: the step `x` succeeds from `s` and `Q` holds of what it gives, unless it leaves a state with a full
table and says so.  Where the tables have room the step succeeds (`Completes.gives`).  One rule for each way to put
steps together, then one for each building step and for each step of lowering on the values of elementary programs:
scalars and the slots that hold them.  `Within` is what happens inside a block, `After` what happens across blocks.
-/

namespace BlockForm

/-! ## Tables and their room -/

/-- A state with tables, one for each kind of handle that is given out in it. -/
class HasTables (σ : Type) where
  /-- The number of objects in the table of a kind. -/
  tableSize : σ → HandleKind → Nat

open HasTables

instance : HasTables Function where
  tableSize f
    | .value => f.values.size
    | .instruction => f.instructions.size
    | .block => f.blocks.size
    | .typedef | .global | .function => 0

instance : HasTables CompilationUnit where
  tableSize u
    | .typedef => u.typedefs.size
    | .global => u.globals.size
    | .function => u.functions.size
    | .value | .instruction | .block => 0

/-- The tables of the function that is lowered: an elementary body adds nothing to those of the unit. -/
instance : HasTables LoweringState where
  tableSize s := tableSize s.function

/-- No table has reached `2 ^ 32` objects. -/
def HasRoom {σ : Type} [HasTables σ] (s : σ) : Prop := ∀ kind, tableSize s kind < 2 ^ 32

instance {σ : Type} [HasTables σ] (s : σ) : Decidable (HasRoom s) :=
  decidable_of_iff (∀ kind ∈ [HandleKind.value, .instruction, .block, .typedef, .global, .function],
      tableSize s kind < 2 ^ 32)
    ⟨fun h kind => h kind (by cases kind <;> simp), fun h kind _ => h kind⟩

namespace Action

variable {σ α β : Type} [HasTables σ]

/-- The step runs into a full table: it says so, and the table is full in the state that it leaves. -/
def Overflows (x : Action σ α) (s : σ) : Prop :=
  ∃ kind, (x s).result = .error (.internal (.tooManyObjects kind)) ∧ Handle.limit ≤ tableSize (x s).state kind

/-- The step succeeds from `s`, and `Q` holds of what it gives, unless a table is full. -/
def Completes (x : Action σ α) (s : σ) (Q : α → σ → Prop) : Prop :=
  x.Overflows s ∨ ∃ a s', Gives x s a s' ∧ Q a s'

section Rules

variable {x : Action σ α} {f : α → Action σ β} {s s' : σ} {a : α} {P : α → σ → Prop} {Q : β → σ → Prop}

theorem Overflows.not_hasRoom (h : x.Overflows s) : ¬ HasRoom (x s).state := by
  obtain ⟨kind, -, hfull⟩ := h
  have hlimit : Handle.limit = 2 ^ 32 := rfl
  intro hroom
  have hlt := hroom kind
  omega

theorem Overflows.bind_left (h : x.Overflows s) : (x >>= f).Overflows s := by
  obtain ⟨kind, hr, hfull⟩ := h
  have hrun : Action.bind x f s = ⟨.error (.internal (.tooManyObjects kind)), (x s).state, (x s).log⟩ := by
    unfold Action.bind
    rcases hx : x s with ⟨e | a, t, log⟩
    · rw [hx] at hr
      cases hr
      rfl
    · rw [hx] at hr
      cases hr
  refine ⟨kind, ?_, ?_⟩
  · show (Action.bind x f s).result = _
    rw [hrun]
  · show Handle.limit ≤ tableSize (Action.bind x f s).state kind
    rw [hrun]
    exact hfull

theorem Overflows.bind_right (hx : Gives x s a s') (h : (f a).Overflows s') : (x >>= f).Overflows s := by
  obtain ⟨hr, hs⟩ := hx
  obtain ⟨kind, h⟩ := h
  refine ⟨kind, ?_⟩
  show (Action.bind x f s).result = _ ∧ Handle.limit ≤ tableSize (Action.bind x f s).state kind
  unfold Action.bind
  rcases hx : x s with ⟨e | a', t, log⟩
  · simp [hx] at hr
  · simp only [hx, Except.ok.injEq] at hr hs
    subst hr hs
    exact h

theorem completes_of_gives (h : Gives x s a s') (hP : P a s') : Completes x s P := Or.inr ⟨a, s', h, hP⟩

/-- **What completes succeeds if the tables have room.** -/
theorem Completes.gives (h : Completes x s P) (hroom : HasRoom (x s).state) : ∃ a s', Gives x s a s' ∧ P a s' :=
  h.resolve_left fun hfull => hfull.not_hasRoom hroom

/-- What a successful run is known to come to may be used. -/
theorem Completes.mono_gives (h : Completes x s P) {P' : α → σ → Prop}
    (hP : ∀ a s', Gives x s a s' → P a s' → P' a s') : Completes x s P' := by
  rcases h with h | ⟨a, s', h, ha⟩
  · exact Or.inl h
  · exact Or.inr ⟨a, s', h, hP a s' h ha⟩

theorem Completes.mono (h : Completes x s P) {P' : α → σ → Prop} (hP : ∀ a s', P a s' → P' a s') :
    Completes x s P' :=
  h.mono_gives fun a s' _ => hP a s'

theorem Completes.bind (hx : Completes x s P) (hf : ∀ a s', P a s' → Completes (f a) s' Q) :
    Completes (x >>= f) s Q := by
  rcases hx with hx | ⟨a, s', hx, ha⟩
  · exact Or.inl hx.bind_left
  rcases hf a s' ha with h | ⟨b, s'', h, hb⟩
  · exact Or.inl (h.bind_right hx)
  · exact Or.inr ⟨b, s'', gives_bind.2 ⟨a, s', hx, h⟩, hb⟩

theorem completes_pure (hP : P a s) : Completes (pure a) s P := completes_of_gives (gives_pure.2 ⟨rfl, rfl⟩) hP

theorem completes_bind_of_gives (hx : Gives x s a s') (h : Completes (f a) s' Q) : Completes (x >>= f) s Q :=
  (completes_of_gives (P := fun b t => b = a ∧ t = s') hx ⟨rfl, rfl⟩).bind fun _ _ ⟨hb, ht⟩ => hb ▸ ht ▸ h

theorem completes_get_bind {k : σ → Action σ β} (h : Completes (k s) s Q) : Completes (get >>= k) s Q :=
  completes_bind_of_gives (gives_get.2 ⟨rfl, rfl⟩) h

theorem completes_check_bind {r : Except Fault α} (hr : r = .ok a) (h : Completes (f a) s Q) :
    Completes (check r >>= f) s Q :=
  completes_bind_of_gives (gives_check.2 ⟨hr, rfl⟩) h

theorem completes_need_bind {o : Option α} {flt : Fault} (ho : o = some a) (h : Completes (f a) s Q) :
    Completes (need o flt >>= f) s Q :=
  completes_bind_of_gives (gives_need.2 ⟨ho, rfl⟩) h

theorem completes_modify_bind {g : σ → σ} {k : Unit → Action σ β} (h : Completes (k ()) (g s) Q) :
    Completes (modify g >>= k) s Q :=
  completes_bind_of_gives (gives_modify.2 rfl) h

theorem completes_report_bind {e : Event} {k : Unit → Action σ β} (h : Completes (k ()) s Q) :
    Completes (report e >>= k) s Q :=
  completes_bind_of_gives (gives_report.2 rfl) h

/-- A handle for a position in the table or right after it is there, or the table is full. -/
theorem completes_handle {kind : HandleKind} {n : Nat} {P : Handle kind → σ → Prop} (hn : n ≤ tableSize s kind)
    (h : P ⟨n⟩ s) : Completes (handle kind n) s P := by
  by_cases hlt : n < Handle.limit
  · exact completes_of_gives (gives_handle.2 ⟨hlt, rfl, rfl⟩) h
  · have hrun : (handle kind n : Action σ (Handle kind)) s = ⟨.error (.internal (.tooManyObjects kind)), s, []⟩ := by
      simp [handle, hlt, fail]
    refine Or.inl ⟨kind, by rw [hrun], ?_⟩
    rw [hrun]
    exact Nat.le_trans (Nat.le_of_not_lt hlt) hn

end Rules

end Action

open Action

/-! ## Building -/

namespace Function

variable {f g : Function}

/-- The value of an elementary type. -/
def IsScalar (f : Function) (v : ValueId) (e : Elementary) : Prop := f.valueType? v = some (.elementary e)

/-- The address of a value of an elementary type. -/
def IsSlot (f : Function) (v : ValueId) (e : Elementary) : Prop :=
  f.valueType? v = some (LoweredType.elementary e).pointerTo

theorem Grows.valueType?_eq (hg : f.Grows g) {v : ValueId} {ty : LoweredType} (h : f.valueType? v = some ty) :
    g.valueType? v = some ty := by
  obtain ⟨x, hx, ht⟩ := Option.bind_eq_some_iff.1 h
  exact Option.bind_eq_some_iff.2 ⟨x, hg.value? hx, ht⟩

theorem pushValue_completes (x : Value) :
    Completes (pushValue x) f fun v f' => v = f.nextValue ∧ f' = f.withValue x := by
  refine completes_get_bind ?_
  refine (completes_handle (P := fun v f' => v = f.nextValue ∧ f' = f) (Nat.le_refl _) ⟨rfl, rfl⟩).bind ?_
  rintro _ _ ⟨rfl, rfl⟩
  exact completes_modify_bind (completes_pure ⟨rfl, rfl⟩)

theorem newBlock_completes (hf : f.Registered) (hd : f.isDeclaration = false) :
    Completes newBlock f fun b f' => b = f.nextBlock ∧ f' = f.withLabel := by
  refine completes_get_bind ?_
  rw [if_neg (by simp [hd])]
  refine (completes_handle (P := fun b f' => b = f.nextBlock ∧ f' = f) (Nat.le_refl _) ⟨rfl, rfl⟩).bind ?_
  rintro _ _ ⟨rfl, rfl⟩
  refine completes_bind_of_gives (freshLabel_gives.2 ⟨rfl, rfl⟩) ?_
  refine completes_bind_of_gives (a := ()) (bindName_gives.2 ⟨hf.labelName_free, rfl⟩) ?_
  refine (pushValue_completes _).bind ?_
  rintro _ _ ⟨rfl, rfl⟩
  exact completes_modify_bind (completes_pure ⟨rfl, rfl⟩)

theorem newInstruction_completes (hf : f.Registered) (op : Operation) (ty : Option LoweredType) :
    Completes (newInstruction op ty) f fun i f' => i = f.nextInstruction ∧ f' = f.withInstruction op ty := by
  refine completes_get_bind ?_
  refine (completes_handle (P := fun i f' => i = f.nextInstruction ∧ f' = f) (Nat.le_refl _) ⟨rfl, rfl⟩).bind ?_
  rintro _ _ ⟨rfl, rfl⟩
  cases ty with
  | none => exact completes_bind_of_gives (gives_pure.2 ⟨rfl, rfl⟩) (completes_modify_bind (completes_pure ⟨rfl, rfl⟩))
  | some ty =>
    refine completes_bind_of_gives (freshVariable_gives.2 ⟨rfl, rfl⟩) ?_
    refine completes_bind_of_gives (a := ()) (bindName_gives.2 ⟨hf.variableName_free, rfl⟩) ?_
    refine (pushValue_completes _).bind ?_
    rintro _ _ ⟨rfl, rfl⟩
    exact completes_modify_bind (completes_pure ⟨rfl, rfl⟩)

/-- An instruction that the table of instructions allows is added to an open block. -/
theorem pushInstruction_completes (hf : f.Registered) {u : CompilationUnit} {b : BlockId} {x : Block} {op : Operation}
    {ty : Option LoweredType} (hop : op.isTerminator = false) (hx : f.block? b = some x) (hopen : x.exit = none)
    (hty : f.Types u op ty) :
    Completes (pushInstruction u b op) f fun v f' => v = f.resultValue ty ∧ f' = f.withEmitted b x op ty := by
  unfold pushInstruction
  rw [if_neg (by simp [hop])]
  refine completes_get_bind (completes_check_bind (openBlock_eq_ok.2 ⟨hx, hopen⟩) ?_)
  refine completes_check_bind (resultType_eq_ok_iff.2 hty) ((newInstruction_completes hf op ty).bind ?_)
  rintro _ _ ⟨rfl, rfl⟩
  refine completes_get_bind (completes_report_bind ?_)
  have hx' : (f.withInstruction op ty).block? b = some x := by rw [block?_withInstruction, hx]
  refine completes_bind_of_gives (a := ()) (updateBlock_gives.2 ⟨x, ⟨hx', hopen⟩, rfl⟩) (completes_pure ⟨?_, rfl⟩)
  exact resultOf_withInstruction op ty

theorem setReturn_completes (hf : f.Registered) {u : CompilationUnit} {b : BlockId} {x : Block}
    {value : Option ValueId} (hx : f.block? b = some x) (hopen : x.exit = none) (hty : f.Types u (.give value) none) :
    Completes (setReturn u b value) f fun _ f' => f' = f.withReturn b x value := by
  refine completes_get_bind (completes_check_bind (openBlock_eq_ok.2 ⟨hx, hopen⟩) ?_)
  refine completes_check_bind (resultType_eq_ok_iff.2 hty) ((newInstruction_completes hf _ none).bind ?_)
  rintro _ _ ⟨rfl, rfl⟩
  have hx' : (f.withInstruction (.give value) none).block? b = some x := by rw [block?_withInstruction, hx]
  exact completes_of_gives (a := ()) (setExit_gives.2 ⟨rfl, x, ⟨hx', hopen⟩, rfl⟩) rfl

/-- A block is placed if it has not been yet. -/
theorem appendBlock_gives_place (hd : f.isDeclaration = false) {b : BlockId} (hb : b ∉ f.blockIds) :
    Gives (appendBlock b) f () (f.place b) := by
  obtain ⟨l, hl⟩ : ∃ l, f.layout = some l := by
    rw [isDeclaration, Option.isNone_eq_false_iff] at hd
    exact Option.isSome_iff_exists.1 hd
  have hnot : b ∉ l := by simpa [blockIds, hl] using hb
  simp only [appendBlock, gives_get_bind, hl, gives_ite, gives_set]
  refine Or.inr ⟨by simpa using hnot, ?_⟩
  rw [place, hl]
  rfl

/-! ## Changes in a row -/

/-- Any number of changes. -/
abbrev Changes : Function → Function → Prop := Relation.ReflTransGen Change

theorem Changes.grows (h : Changes f g) : f.Grows g := by
  induction h with
  | refl => exact .refl _
  | tail _ hc ih => exact ih.trans hc.grows

theorem Changes.registered (h : Changes f g) (hf : f.Registered) : g.Registered := by
  induction h with
  | refl => exact hf
  | tail _ hc ih => exact hc.registered ih

theorem Changes.returnSlot_eq (h : Changes f g) : g.returnSlot = f.returnSlot := by
  induction h with
  | refl => rfl
  | @tail g g' _ hc ih =>
    rw [← ih]
    cases hc with
    | @emit b x hx hopen op ty => cases ty <;> rfl
    | _ => rfl

end Function

/-! ## The state of lowering an elementary body -/

/-- The block can be placed, and is open. -/
def Function.Waits (f : Function) (b : BlockId) : Prop := b ∉ f.blockIds ∧ f.IsOpen b

/-- What lowering an elementary body relies on: the blocks in the layout are blocks of the function, and names in scope
stand for slots of elementary values. -/
structure LoweringState.Fit (s : LoweringState) : Prop where
  registered : s.function.Registered
  defined : s.function.isDeclaration = false
  placed : s.current ∈ s.function.blockIds
  inRange : ∀ b ∈ s.function.blockIds, b.index < s.function.blocks.size
  slots : ∀ scope ∈ s.scopes, ∀ p ∈ scope, ∃ e, s.function.IsSlot p.2 e
  returnSlot : ∀ slot ∈ s.function.returnSlot, ∃ e, s.function.returnType = .elementary e ∧ s.function.IsSlot slot e

/-- The current block takes more. -/
structure LoweringState.Able (s : LoweringState) : Prop extends Fit s where
  isOpen : s.function.IsOpen s.current

/-- Lowering has gone on in the same block; no block is placed, and none is closed. -/
structure LoweringState.Within (s s' : LoweringState) : Prop where
  same : s' = { s with function := s'.function }
  changes : s.function.Changes s'.function
  blockIds : s'.function.blockIds = s.function.blockIds
  isOpen : ∀ {b}, s.function.IsOpen b → s'.function.IsOpen b

/-- Lowering has gone on, perhaps in another block; blocks that waited to be placed still do, some apart. -/
structure LoweringState.After (used : List BlockId) (s s' : LoweringState) : Prop where
  unit : s'.unit = s.unit
  endBlock : s'.endBlock = s.endBlock
  changes : s.function.Changes s'.function
  waits : ∀ {b}, b ∉ used → s.function.Waits b → s'.function.Waits b
  fit : s'.Fit

namespace LoweringState

variable {s s' s'' : LoweringState}

theorem Fit.of_changes (hs : s.Fit) (hc : s.function.Changes s'.function) (hscopes : s'.scopes = s.scopes)
    (hplaced : s'.current ∈ s'.function.blockIds)
    (hrange : ∀ b ∈ s'.function.blockIds, b.index < s'.function.blocks.size) : s'.Fit where
  registered := hc.registered hs.registered
  defined := hc.grows.isDeclaration.trans hs.defined
  placed := hplaced
  inRange := hrange
  slots := by
    rw [hscopes]
    intro scope hscope p hp
    obtain ⟨e, he⟩ := hs.slots scope hscope p hp
    exact ⟨e, hc.grows.valueType?_eq he⟩
  returnSlot := by
    rw [hc.returnSlot_eq]
    intro v hv
    obtain ⟨e, hty, he⟩ := hs.returnSlot v hv
    exact ⟨e, hc.grows.returnType.trans hty, hc.grows.valueType?_eq he⟩

namespace Within

theorem refl (s : LoweringState) : s.Within s := ⟨rfl, .refl, rfl, id⟩

theorem trans (h₁ : s.Within s') (h₂ : s'.Within s'') : s.Within s'' := by
  refine ⟨?_, h₁.changes.trans h₂.changes, h₂.blockIds.trans h₁.blockIds, fun hb => h₂.isOpen (h₁.isOpen hb)⟩
  rw [h₂.same, h₁.same]

theorem unit (h : s.Within s') : s'.unit = s.unit := by rw [h.same]

theorem current (h : s.Within s') : s'.current = s.current := by rw [h.same]

theorem endBlock (h : s.Within s') : s'.endBlock = s.endBlock := by rw [h.same]

theorem scopes (h : s.Within s') : s'.scopes = s.scopes := by rw [h.same]

theorem scalar (h : s.Within s') {v : ValueId} {e : Elementary} (hv : s.function.IsScalar v e) :
    s'.function.IsScalar v e :=
  h.changes.grows.valueType?_eq hv

theorem slot (h : s.Within s') {v : ValueId} {e : Elementary} (hv : s.function.IsSlot v e) :
    s'.function.IsSlot v e :=
  h.changes.grows.valueType?_eq hv

theorem waits (h : s.Within s') {b : BlockId} (hb : s.function.Waits b) : s'.function.Waits b :=
  ⟨h.blockIds ▸ hb.1, h.isOpen hb.2⟩

theorem able (h : s.Within s') (hs : s.Able) : s'.Able where
  toFit := by
    refine hs.toFit.of_changes h.changes h.scopes ?_ fun b hb => ?_
    · rw [h.current, h.blockIds]
      exact hs.placed
    · rw [h.blockIds] at hb
      obtain ⟨y, hy, -⟩ := h.changes.grows.block (Array.getElem?_eq_getElem (hs.inRange b hb))
      exact Function.block?_lt hy
  isOpen := by
    rw [h.current]
    exact h.isOpen hs.isOpen

theorem after (h : s.Within s') (hs : s.Able) : After [] s s' :=
  ⟨h.unit, h.endBlock, h.changes, fun _ hb => h.waits hb, (h.able hs).toFit⟩

end Within

namespace After

variable {used used' : List BlockId}

theorem trans (h₁ : After used s s') (h₂ : After used' s' s'') : After (used ++ used') s s'' := by
  refine ⟨h₂.unit.trans h₁.unit, h₂.endBlock.trans h₁.endBlock, h₁.changes.trans h₂.changes, ?_, h₂.fit⟩
  intro b hb hw
  rw [List.mem_append, not_or] at hb
  exact h₂.waits hb.2 (h₁.waits hb.1 hw)

/-- Blocks that did not wait at first need no mention. -/
theorem forget (h : After used s s') (hused : ∀ b ∈ used, ¬ s.function.Waits b) : After [] s s' :=
  { h with waits := fun _ hw => h.waits (fun hb => hused _ hb hw) hw }

end After

end LoweringState

namespace Lowering

variable {α : Type} {s : LoweringState}

/-! ## Steps within a block -/

/-- A full table of the function is one of the state. -/
theorem overflows_of_function {x : Building α} {y : Lowering α} (hr : (y s).result = (x s.function).result)
    (hf : (y s).state.function = (x s.function).state) (h : x.Overflows s.function) : y.Overflows s := by
  obtain ⟨kind, hfault, hfull⟩ := h
  refine ⟨kind, hr.trans hfault, ?_⟩
  rw [← hf] at hfull
  exact hfull

theorem completes_inFunction {x : Building α} {P : α → Function → Prop} {Q : α → LoweringState → Prop}
    (h : Completes x s.function P) (hQ : ∀ a f, P a f → Q a { s with function := f }) :
    Completes (inFunction x) s Q := by
  rcases h with h | ⟨a, f, h, hP⟩
  · exact Or.inl (overflows_of_function rfl rfl h)
  · exact completes_of_gives (gives_inFunction.2 ⟨f, h, rfl⟩) (hQ a f hP)

theorem isOpen_withEmitted {f : Function} {b c : BlockId} {x : Block} (hx : f.block? b = some x)
    {op : Operation} {ty : Option LoweredType} (hc : f.IsOpen c) : (f.withEmitted b x op ty).IsOpen c := by
  obtain ⟨y, hy, hopen⟩ := hc
  rw [Function.IsOpen, Function.block?_withEmitted hx]
  by_cases hcb : c = b
  · subst hcb
    obtain rfl := Option.some.inj (hx.symm.trans hy)
    exact ⟨_, if_pos rfl, hopen⟩
  · exact ⟨y, by rw [if_neg hcb, hy], hopen⟩

/-- An instruction is added to the current block. -/
theorem emit_completes (hs : s.Able) {op : Operation} {ty : Option LoweredType} (hop : op.isTerminator = false)
    (hty : s.function.Types s.unit op ty) :
    Completes (emit op) s fun v s' => s.Within s' ∧ v = s.function.resultValue ty ∧
      ∀ t, ty = some t → s'.function.valueType? v = some t := by
  obtain ⟨x, hx, hopen⟩ := hs.isOpen
  rcases Function.pushInstruction_completes hs.registered hop hx hopen hty with h | ⟨v, f, h, rfl, rfl⟩
  · exact Or.inl (overflows_of_function rfl rfl h)
  · have hids : (s.function.withEmitted s.current x op ty).blockIds = s.function.blockIds := by cases ty <;> rfl
    refine completes_of_gives (gives_emit.2 ⟨_, h, rfl⟩)
      ⟨⟨rfl, .single (.emit hx hopen op ty), hids, isOpen_withEmitted hx⟩, rfl, ?_⟩
    rintro t rfl
    have hval : (s.function.withEmitted s.current x op (some t)).value? s.function.nextValue =
        some ⟨.result s.function.nextInstruction, some t, s.function.variableName⟩ :=
      (Function.value?_withInstruction op (some t) _).trans (if_pos ⟨rfl, rfl⟩)
    exact Option.bind_eq_some_iff.2 ⟨_, hval, rfl⟩

theorem constant_completes (s : LoweringState) (c : Constant) (e : Elementary) :
    Completes (constant c e) s fun v s' => s.Within s' ∧ s'.function.IsScalar v e := by
  refine completes_inFunction (Function.pushValue_completes _) ?_
  rintro v f ⟨rfl, rfl⟩
  refine ⟨⟨rfl, .single (.constant c e), rfl, id⟩, ?_⟩
  refine Option.bind_eq_some_iff.2 ⟨⟨.constant c, some (.elementary e), c.text⟩, ?_, rfl⟩
  rw [Function.value?_withValue, if_pos rfl]

theorem alloca_completes (hs : s.Able) (e : Elementary) :
    Completes (alloca (.elementary e)) s fun v s' => s.Within s' ∧ s'.function.IsSlot v e := by
  refine (emit_completes hs rfl (.alloca rfl (by decide))).mono ?_
  rintro v s' ⟨hw, -, hty⟩
  exact ⟨hw, hty _ rfl⟩

theorem lowerType_gives_elementary {u : CompilationUnit} {ty : Ty} {e : Elementary} (h : ty.elementary? = some e) :
    Gives (CompilationUnit.lowerType ty) u (.elementary e) u := by
  rw [CompilationUnit.lowerType, h]
  exact gives_pure.2 ⟨rfl, rfl⟩

theorem gives_lowerType {ty : Ty} {e : Elementary} (h : ty.elementary? = some e) :
    Gives (lowerType ty) s (.elementary e) s :=
  gives_inUnit.2 ⟨s.unit, lowerType_gives_elementary h, rfl⟩

theorem gives_typeOf_of {v : ValueId} {ty : LoweredType} (h : s.function.valueType? v = some ty) :
    Gives (typeOf v) s ty s :=
  gives_typeOf.2 ⟨Function.operandType_eq_ok_iff_valueType?.2 h, rfl⟩

/-- A constant is made again with the elementary type that is asked for. -/
theorem retypedConstant?_type {f : Function} {v : ValueId} {e e' : Elementary} {c : Constant}
    (h : retypedConstant? f v (.elementary e) = some (c, e')) : e' = e := by
  simp only [retypedConstant?, LoweredType.elementary, Bool.false_eq_true, if_false, LoweredType.elementary?] at h
  cases hc : f.constant? v with
  | none => simp [hc] at h
  | some d =>
    simp only [hc, Option.map_eq_some_iff, Prod.mk.injEq] at h
    obtain ⟨_, _, _, rfl⟩ := h
    rfl

/-- A scalar can be made one of any elementary type. -/
theorem coerce_completes (hs : s.Able) {v : ValueId} {e : Elementary} (hv : s.function.IsScalar v e)
    (e' : Elementary) :
    Completes (coerce v (.elementary e')) s fun w s' => s.Within s' ∧ s'.function.IsScalar w e' := by
  refine completes_bind_of_gives (gives_typeOf_of hv) ?_
  by_cases he : LoweredType.elementary e = .elementary e'
  · rw [if_pos he]
    refine completes_pure ⟨.refl s, ?_⟩
    rw [Function.IsScalar, ← he]
    exact hv
  rw [if_neg he]
  refine completes_get_bind ?_
  cases hc : retypedConstant? s.function v (.elementary e') with
  | some p =>
    obtain ⟨c, e''⟩ := p
    obtain rfl := retypedConstant?_type hc
    exact constant_completes s c e''
  | none =>
    have hscalar : ∀ d, (LoweredType.elementary d).isScalar = true := fun _ => rfl
    simp only [hscalar, Bool.and_self, if_true]
    refine (emit_completes hs rfl (.convert hv rfl rfl)).mono ?_
    rintro w s' ⟨hw, -, hty⟩
    exact ⟨hw, hty _ rfl⟩

/-- A scalar can be stored in any slot. -/
theorem store_completes (hs : s.Able) {slot v : ValueId} {e e' : Elementary} (hslot : s.function.IsSlot slot e)
    (hv : s.function.IsScalar v e') : Completes (store slot v) s fun _ s' => s.Within s' := by
  refine completes_bind_of_gives (gives_typeOf_of hslot) (completes_bind_of_gives (gives_typeOf_of hv) ?_)
  have hcomp : (LoweredType.elementary e').isComposite = false := rfl
  have hpointee : (LoweredType.elementary e).pointerTo.pointee = .elementary e := rfl
  simp only [hcomp, Bool.false_and, Bool.false_eq_true, if_false, hpointee]
  refine (coerce_completes hs hv e).bind ?_
  rintro w s₁ ⟨hw, hwv⟩
  refine (emit_completes (hw.able hs) rfl (.write (hw.slot hslot) rfl hwv)).bind ?_
  rintro _ s₂ ⟨hw₂, -, -⟩
  exact completes_pure (hw.trans hw₂)

theorem load_completes (hs : s.Able) {slot : ValueId} {e : Elementary} (hslot : s.function.IsSlot slot e) :
    Completes (load slot) s fun v s' => s.Within s' ∧ s'.function.IsScalar v e := by
  refine completes_bind_of_gives (gives_typeOf_of hslot) ?_
  have hcomp : (LoweredType.elementary e).pointerTo.isComposite = false := rfl
  rw [if_neg (by simp [hcomp])]
  refine (emit_completes hs rfl (.read hslot rfl)).mono ?_
  rintro v s' ⟨hw, -, hty⟩
  exact ⟨hw, hty _ rfl⟩

/-- A name in scope stands for a slot. -/
theorem slotOf_completes (hs : s.Fit) {name : String} (hname : ∃ scope ∈ s.scopes, name ∈ scope.map Prod.fst) :
    Completes (slotOf name) s fun v s' => s' = s ∧ ∃ e, s.function.IsSlot v e := by
  obtain ⟨v, hv⟩ : ∃ v, s.scopes.findSome? (List.lookup name) = some v := by
    obtain ⟨scope, hscope, hmem⟩ := hname
    rw [← Option.isSome_iff_exists, List.findSome?_isSome_iff]
    refine ⟨scope, hscope, ?_⟩
    rw [Option.isSome_iff_ne_none, Ne, List.lookup_eq_none_iff]
    obtain ⟨p, hp, rfl⟩ := List.mem_map.1 hmem
    exact fun hnone => by simpa using hnone p hp
  refine completes_of_gives (gives_slotOf.2 ⟨hv, rfl⟩) ⟨rfl, ?_⟩
  obtain ⟨scope, hscope, hl⟩ := List.exists_of_findSome?_eq_some hv
  exact hs.slots scope hscope _ (mem_of_lookup hl)

/-! ## Steps between blocks -/

/-- A block is made, and waits to be placed. -/
theorem newBlock_completes (hs : s.Able) :
    Completes newBlock s fun b s' => s.Within s' ∧ s'.function.Waits b ∧ ¬ s.function.IsOpen b := by
  refine completes_inFunction (Function.newBlock_completes hs.registered hs.defined) ?_
  rintro b f ⟨rfl, rfl⟩
  have hopen : s.function.withLabel.IsOpen s.function.nextBlock :=
    ⟨_, by rw [Function.block?_withLabel_eq, if_pos rfl], rfl⟩
  refine ⟨⟨rfl, .single .label, rfl, ?_⟩, ⟨fun hb => Nat.lt_irrefl _ (hs.inRange _ hb), hopen⟩, ?_⟩
  · rintro b ⟨x, hx, he⟩
    exact ⟨x, Function.block?_withLabel hx, he⟩
  · rintro ⟨x, hx, -⟩
    exact Nat.lt_irrefl _ (Function.block?_lt hx)

/-- The current block is closed with an exit that fits. -/
theorem leave_completes (hs : s.Able) {exit : Exit} (hexit : s.function.checkExit exit = .ok ()) :
    Completes (leave exit) s fun _ s' => s.After [] s' ∧ s'.scopes = s.scopes ∧
      s'.function.IsClosed s'.current := by
  obtain ⟨x, hx, hopen⟩ := hs.isOpen
  refine completes_of_gives (a := ()) (gives_leave.2 ⟨_, Function.setExit_gives.2 ⟨hexit, x, ⟨hx, hopen⟩, rfl⟩, rfl⟩) ?_
  have hc : s.function.Changes (s.function.withExit s.current x exit) := .single (.leave hx hopen exit)
  have hids : (s.function.withExit s.current x exit).blockIds = s.function.blockIds := rfl
  -- A block that waits is not the one that is closed, because that one is placed.
  have hwaits : ∀ {b}, s.function.Waits b → (s.function.withExit s.current x exit).Waits b := by
    rintro b ⟨hb, y, hy, he⟩
    have hne : b ≠ s.current := fun hbc => hb (hbc ▸ hs.placed)
    exact ⟨hids ▸ hb, y, by rw [Function.block?_withExit hx, if_neg hne, hy], he⟩
  refine ⟨⟨rfl, rfl, hc, fun _ hb => hwaits hb, ?_⟩, rfl, ?_⟩
  · refine hs.toFit.of_changes hc rfl (hids ▸ hs.placed) fun b hb => ?_
    obtain ⟨y, hy, -⟩ := hc.grows.block (Array.getElem?_eq_getElem (hs.inRange b (hids ▸ hb)))
    exact Function.block?_lt hy
  · exact ⟨_, by rw [Function.block?_withExit hx, if_pos rfl], rfl⟩

/-- A block that waits has a label to go to. -/
theorem labelOf_gives_of_isOpen (hs : s.Fit) {b : BlockId} (hb : s.function.IsOpen b) :
    ∃ label, Gives (inFunction (Function.labelOf b)) s label s ∧ s.function.labelTarget? label = some b := by
  obtain ⟨x, hx, -⟩ := hb
  refine ⟨x.label, gives_inFunction.2 ⟨_, Function.labelOf_gives.2 ⟨⟨x, hx, rfl⟩, rfl⟩, rfl⟩, ?_⟩
  have hvalue : s.function.valueOf? (.block b) = some x.label := by simp [Function.valueOf?, hx]
  obtain ⟨v, hv, hobj⟩ := hs.registered.objects.1 hvalue
  refine Option.bind_eq_some_iff.2 ⟨v, hv, ?_⟩
  unfold Value.object? at hobj
  unfold Value.label?
  split at hobj <;> simp_all

/-- Control goes to a block that waits, unless it has left already. -/
theorem branchTo_completes (hs : s.Fit) {b : BlockId} (hb : s.function.IsOpen b)
    (hsettled : s.function.IsOpen s.current ∨ s.function.IsClosed s.current) :
    Completes (branchTo b) s fun _ s' => s.After [] s' ∧ s'.scopes = s.scopes ∧
      s'.function.IsClosed s'.current := by
  rcases hsettled with ho | hc
  · refine completes_bind_of_gives (gives_isTerminated.2 ⟨Site.isTerminated_of_isOpen ho, rfl⟩) ?_
    obtain ⟨label, hl, ht⟩ := labelOf_gives_of_isOpen hs hb
    refine completes_bind_of_gives hl (leave_completes ⟨hs, ho⟩ ?_)
    exact Function.checkExit_eq_ok.2 ⟨by simpa [Exit.targets] using ⟨b, ht⟩, by simp [Exit.conditions]⟩
  · refine completes_bind_of_gives (gives_isTerminated.2 ⟨Site.isTerminated_of_isClosed hc, rfl⟩) ?_
    exact completes_pure ⟨⟨rfl, rfl, .refl, fun _ hw => hw, hs⟩, rfl, hc⟩

theorem branchOn_completes (hs : s.Able) {condition : ValueId} {taken otherwise : BlockId}
    (hc : s.function.IsScalar condition .bool) (ht : s.function.IsOpen taken) (hf : s.function.IsOpen otherwise) :
    Completes (branchOn condition taken otherwise) s fun _ s' => s.After [] s' ∧ s'.scopes = s.scopes ∧
      s'.function.IsClosed s'.current := by
  obtain ⟨l, hl, hlt⟩ := labelOf_gives_of_isOpen hs.toFit ht
  obtain ⟨l', hl', hlt'⟩ := labelOf_gives_of_isOpen hs.toFit hf
  refine completes_bind_of_gives hl (completes_bind_of_gives hl' (leave_completes hs ?_))
  refine Function.checkExit_eq_ok.2 ⟨?_, ?_⟩
  · intro t hmem
    simp only [Exit.targets, List.mem_cons, List.not_mem_nil, or_false] at hmem
    rcases hmem with rfl | rfl
    · exact ⟨taken, hlt⟩
    · exact ⟨otherwise, hlt'⟩
  · intro c hmem
    obtain rfl : c = condition := by simpa [Exit.conditions] using hmem
    exact ⟨_, Function.operandType_eq_ok_iff_valueType?.2 hc, rfl⟩

/-- A block that waits is placed, and lowering goes on in it. -/
theorem startBlock_completes (hs : s.Fit) {b : BlockId} (hb : s.function.Waits b) :
    Completes (startBlock b) s fun _ s' => s.After [b] s' ∧ s'.scopes = s.scopes ∧ s'.Able := by
  have hgives := Function.appendBlock_gives_place hs.defined hb.1
  refine completes_of_gives (a := ()) (gives_startBlock.2 ⟨_, hgives, rfl⟩) ?_
  have hc : s.function.Changes (s.function.place b) := .single (.place hb.1)
  have hmem : ∀ c, c ∈ (s.function.place b).blockIds ↔ c ∈ s.function.blockIds ∨ c = b := by
    obtain ⟨l, hl⟩ : ∃ l, s.function.layout = some l := by
      have hd := hs.defined
      rw [Function.isDeclaration, Option.isNone_eq_false_iff] at hd
      exact Option.isSome_iff_exists.1 hd
    intro c
    rw [Function.blockIds_place hl, List.mem_append, List.mem_singleton]
  have hwaits : ∀ {c}, c ≠ b → s.function.Waits c → (s.function.place b).Waits c := by
    rintro c hcb ⟨hc', hopen⟩
    exact ⟨fun hm => ((hmem c).1 hm).elim hc' hcb, hopen⟩
  have hfit : LoweringState.Fit { s with function := s.function.place b, current := b } := by
    refine hs.of_changes hc rfl ((hmem b).2 (Or.inr rfl)) fun c hm => ?_
    rcases (hmem c).1 hm with hm | rfl
    · exact hs.inRange c hm
    · obtain ⟨x, hx, -⟩ := hb.2
      exact Function.block?_lt hx
  exact ⟨⟨rfl, rfl, hc, fun hcu hw => hwaits (fun he => hcu (he ▸ List.mem_singleton_self _)) hw, hfit⟩, rfl,
    ⟨hfit, hb.2⟩⟩

end Lowering

end BlockForm
