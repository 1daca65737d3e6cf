import BlockForm.Proofs.Dominance
import BlockForm.Proofs.WellTyped

/-!
# BlockForm.Proofs.Region — a small program logic for lowering

`Ready g` says that lowering can go on at a site: the invariants hold, the current block is open, and every slot in
scope can be read.  `Yields x g Q` says that a successful run of `x` from a ready site only goes `Onward`: along a
trace, to a place that every path reaches through `g`, with no block left over and the scopes as they were; and
that `Q` holds of its result there.  Rules for sequencing and for every step that stays in the current block.
-/

namespace BlockForm

open Action

/-- What a look-up finds is in the list. -/
theorem mem_of_lookup {α β : Type} [BEq α] [LawfulBEq α] {l : List (α × β)} {a : α} {b : β}
    (h : l.lookup a = some b) : (a, b) ∈ l := by
  obtain ⟨l₁, l₂, rfl, -⟩ := List.lookup_eq_some_iff.1 h
  simp

namespace Function

/-- The values remembered for literals are literals. -/
def LiteralsMade (f : Function) : Prop :=
  ∀ p ∈ f.literals, ∃ x, f.value? p.2 = some x ∧ ∀ i, x.kind ≠ .result i

theorem LiteralsMade.grow {f g : Function} (h : f.LiteralsMade) (hg : f.Grows g)
    (hl : g.literals = f.literals) : g.LiteralsMade := by
  intro p hp
  rw [hl] at hp
  obtain ⟨x, hx, hk⟩ := h p hp
  exact ⟨x, hg.value? hx, hk⟩

end Function

namespace Site

variable {α β : Type} {g g' g'' : Site}

/-! ## The invariants -/

/-- All that holds of a site between two steps. -/
structure Sound (g : Site) : Prop where
  coherent : g.state.function.Coherent
  laid : g.state.Laid
  closed : g.state.unit.Closed
  wellTyped : g.state.function.WellTyped g.state.unit
  dominated : g.state.function.Dominated g.known
  literals : g.state.function.LiteralsMade

theorem Step.literals (h : Step g g') (hl : g.state.function.LiteralsMade) : g'.state.function.LiteralsMade := by
  have hg := h.function_grows
  cases h with
  | @literal s k id l hl' hnew =>
    intro p hp
    have hp' : p ∈ s.function.literals ++ [(id, s.function.nextValue)] := hp
    rcases List.mem_append.1 hp' with hp' | hp'
    · obtain ⟨x, hx, hk⟩ := hl p hp'
      exact ⟨x, hg.value? hx, hk⟩
    · obtain rfl := List.mem_singleton.1 hp'
      refine ⟨⟨.literal id l.content, some l.ty, l.name⟩, ?_, nofun⟩
      show (s.function.withValue _).value? _ = _
      rw [Function.value?_withValue, if_pos rfl]
  | @emit s k op ty => exact hl.grow hg (by cases ty <;> rfl)
  | _ => exact hl.grow hg rfl

theorem Step.sound (h : Step g g') (hs : g.Sound) : g'.Sound where
  coherent := h.coherent hs.coherent
  laid := h.laid hs.coherent hs.laid
  closed := h.closed hs.closed
  wellTyped := h.wellTyped hs.coherent hs.closed hs.wellTyped
  dominated := h.dominated hs.coherent hs.laid hs.dominated
  literals := h.literals hs.literals

/-- **The invariants hold all along a trace.** -/
theorem Trace.sound (h : Trace g g') (hs : g.Sound) : g'.Sound := by
  induction h with
  | refl => exact hs
  | tail _ hstep ih => exact hstep.sound ih

/-! ## Places to go on from -/

/-- Lowering can go on here. -/
structure Ready (g : Site) : Prop where
  sound : g.Sound
  isOpen : g.state.function.IsOpen g.state.current
  slots : ∀ scope ∈ g.state.scopes, ∀ p ∈ scope, g.Usable p.2
  returnSlot : ∀ v ∈ g.state.function.returnSlot, g.Usable v
  ending : g.CanReach g.state.endBlock

/-- From `g` on to a place that every path reaches through `g`; the blocks that waited to be placed still do. -/
structure Along (g g' : Site) : Prop where
  trace : Trace g g'
  isOpen : g'.state.function.IsOpen g'.state.current
  here : g.here ⊆ g'.here
  waiting : ∀ {b}, g.state.function.Pending b → g'.state.function.Pending b
  scopes : g'.state.scopes = g.state.scopes

/-- Going on without blocks left over. -/
structure Onward (g g' : Site) : Prop extends Along g g' where
  settled : ∀ {b}, g'.state.function.Pending b → g.state.function.Pending b

theorem Usable.mono {v : ValueId} (h : g.Usable v) (hg : g.state.function.Grows g'.state.function)
    (hh : g.here ⊆ g'.here) : g'.Usable v := by
  obtain ⟨x, hx, hr⟩ := h
  exact ⟨x, hg.value? hx, fun i hi => hh (hr i hi)⟩

namespace Along

theorem refl (h : g.state.function.IsOpen g.state.current) : Along g g :=
  ⟨.refl, h, subset_rfl, id, rfl⟩

theorem trans (h₁ : Along g g') (h₂ : Along g' g'') : Along g g'' :=
  ⟨h₁.trace.trans h₂.trace, h₂.isOpen, h₁.here.trans h₂.here, fun hb => h₂.waiting (h₁.waiting hb),
    h₂.scopes.trans h₁.scopes⟩

theorem usable (h : Along g g') {v : ValueId} (hv : g.Usable v) : g'.Usable v :=
  hv.mono h.trace.function_grows h.here

theorem canReach (h : Along g g') {b : BlockId} (hb : g.CanReach b) : g'.CanReach b :=
  ⟨h.waiting hb.1, by rw [h.trace.known_eq hb.1.1]; exact hb.2.trans h.here⟩

theorem ready (h : Along g g') (hr : g.Ready) : g'.Ready where
  sound := h.trace.sound hr.sound
  isOpen := h.isOpen
  slots := by
    rw [h.scopes]
    exact fun scope hs p hp => h.usable (hr.slots scope hs p hp)
  returnSlot := by
    rw [h.trace.returnSlot_eq]
    exact fun v hv => h.usable (hr.returnSlot v hv)
  ending := by
    rw [h.trace.endBlock_eq]
    exact h.canReach hr.ending

end Along

namespace Onward

theorem refl (h : g.state.function.IsOpen g.state.current) : Onward g g := ⟨.refl h, id⟩

theorem trans (h₁ : Onward g g') (h₂ : Onward g' g'') : Onward g g'' :=
  ⟨h₁.toAlong.trans h₂.toAlong, fun hb => h₁.settled (h₂.settled hb)⟩

end Onward

/-- A step that stays in the current block. -/
theorem Step.onward (h : Step g g') (hcur : g'.state.current = g.state.current)
    (hopen : g'.state.function.IsOpen g'.state.current) (hk : g'.known = g.known)
    (hids : g'.state.function.blockIds = g.state.function.blockIds)
    (hsize : g'.state.function.blocks.size = g.state.function.blocks.size)
    (hscopes : g'.state.scopes = g.state.scopes) : Onward g g' := by
  have hpend : ∀ b, g'.state.function.Pending b ↔ g.state.function.Pending b := by
    intro b
    rw [Function.Pending, Function.Pending, hids, hsize]
  refine ⟨⟨.single h, hopen, ?_, fun hb => (hpend _).2 hb, hscopes⟩, fun hb => (hpend _).1 hb⟩
  rw [here, here, hcur, hk]
  exact Set.union_subset_union_right _ (h.function_grows.held_subset _)

/-! ## Scopes -/

/-- The site with other names in scope. -/
def withScopes (g : Site) (scopes : List Scope) : Site := ⟨{ g.state with scopes := scopes }, g.known⟩

theorem Ready.withScopes (hr : g.Ready) {scopes : List Scope}
    (hs : ∀ scope ∈ scopes, ∀ p ∈ scope, g.Usable p.2) : (g.withScopes scopes).Ready :=
  ⟨(Step.scopes (s := g.state) (k := g.known) scopes).sound hr.sound, hr.isOpen, hs, hr.returnSlot, hr.ending⟩

/-- What goes onward does so whatever is in scope. -/
theorem Onward.withScopes (h : Onward g g') (scopes : List Scope) :
    Onward (g.withScopes scopes) (g'.withScopes scopes) := by
  have hback : Step (g.withScopes scopes) g :=
    .scopes (s := (g.withScopes scopes).state) (k := g.known) g.state.scopes
  have hfor : Step g' (g'.withScopes scopes) := .scopes (s := g'.state) (k := g'.known) scopes
  exact ⟨⟨((Relation.ReflTransGen.single hback).trans h.trace).tail hfor, h.isOpen, h.here, h.waiting, rfl⟩,
    h.settled⟩

/-! ## Runs that go onward -/

/-- A successful run of `x` goes onward from `g`, and `Q` holds of its result where it ends. -/
def Yields (x : Lowering α) (g : Site) (Q : α → Site → Prop) : Prop :=
  ∀ a s', Gives x g.state a s' → ∃ g', g'.state = s' ∧ Onward g g' ∧ Q a g'

theorem yields_pure {a : α} {Q : α → Site → Prop} (hr : g.Ready) (hQ : Q a g) : Yields (pure a) g Q := by
  intro b s' h
  obtain ⟨rfl, rfl⟩ := gives_pure.1 h
  exact ⟨g, rfl, .refl hr.isOpen, hQ⟩

theorem Yields.bind {x : Lowering α} {f : α → Lowering β} {P : α → Site → Prop} {Q : β → Site → Prop}
    (hx : Yields x g P) (hf : ∀ a g', Onward g g' → P a g' → Yields (f a) g' Q) : Yields (x >>= f) g Q := by
  intro b s' h
  obtain ⟨a, s₁, h₁, h₂⟩ := gives_bind.1 h
  obtain ⟨g₁, rfl, ho₁, hP⟩ := hx a s₁ h₁
  obtain ⟨g₂, rfl, ho₂, hQ⟩ := hf a g₁ ho₁ hP b s' h₂
  exact ⟨g₂, rfl, ho₁.trans ho₂, hQ⟩

theorem yields_get_bind {f : LoweringState → Lowering α} {Q : α → Site → Prop} (h : Yields (f g.state) g Q) :
    Yields (Action.get >>= f) g Q := fun a s' hg => h a s' (gives_get_bind.1 hg)

theorem yields_need_bind {o : Option α} {flt : Fault} {f : α → Lowering β} {Q : β → Site → Prop}
    (h : ∀ a, o = some a → Yields (f a) g Q) : Yields (Action.need o flt >>= f) g Q := by
  intro b s' hg
  obtain ⟨a, ha, hg⟩ := gives_need_bind.1 hg
  exact h a ha b s' hg

theorem yields_fault {flt : Fault} {Q : α → Site → Prop} : Yields (Action.fault flt) g Q :=
  fun _ _ h => absurd h not_gives_fault

theorem yields_typeOf_bind {v : ValueId} {f : LoweredType → Lowering α} {Q : α → Site → Prop}
    (h : ∀ ty, g.state.function.valueType? v = some ty → Yields (f ty) g Q) :
    Yields (Lowering.typeOf v >>= f) g Q := by
  intro a s' hg
  obtain ⟨ty, s₁, h₁, h₂⟩ := gives_bind.1 hg
  obtain ⟨hty, rfl⟩ := Lowering.gives_typeOf.1 h₁
  exact h ty (Function.operandType_eq_ok_iff_valueType?.1 hty) a s' h₂

/-- A name in scope stands for a slot that can be read. -/
theorem yields_slotOf_bind {name : String} {f : ValueId → Lowering α} {Q : α → Site → Prop} (hr : g.Ready)
    (h : ∀ slot, g.Usable slot → Yields (f slot) g Q) : Yields (Lowering.slotOf name >>= f) g Q := by
  intro a s' hg
  obtain ⟨slot, s₁, h₁, h₂⟩ := gives_bind.1 hg
  obtain ⟨hfind, rfl⟩ := Lowering.gives_slotOf.1 h₁
  obtain ⟨scope, hs, hl⟩ := List.exists_of_findSome?_eq_some hfind
  exact h slot (hr.slots scope hs _ (mem_of_lookup hl)) a s' h₂

/-! ## Steps within the current block -/

theorem lowerType_yields (hr : g.Ready) (ty : Ty) :
    Yields (Lowering.lowerType ty) g fun t g' => g'.state.unit.Knows t ∧ t.isPointer = false := by
  intro t s' h
  obtain ⟨u, hu, rfl⟩ := Lowering.gives_inUnit.1 h
  have hstep : Step g ⟨{ g.state with unit := u }, g.known⟩ := .lowerType hu
  exact ⟨_, rfl, hstep.onward rfl hr.isOpen rfl rfl rfl rfl, CompilationUnit.lowerType_knows hu,
    CompilationUnit.lowerType_isPointer hu⟩

theorem constant_yields (hr : g.Ready) {c : Constant} {e : Elementary} (h : c.Fits e) :
    Yields (Lowering.constant c e) g fun v g' => g'.Usable v := by
  intro v s' hg
  obtain ⟨f, hf, rfl⟩ := Lowering.gives_inFunction.1 hg
  obtain ⟨-, rfl, rfl⟩ := Function.constant_gives.1 hf
  have hstep : Step g _ := .constant (s := g.state) (k := g.known) h
  refine ⟨_, rfl, hstep.onward rfl hr.isOpen rfl rfl rfl rfl, ⟨.constant c, some (.elementary e), c.text⟩, ?_, nofun⟩
  show (g.state.function.withValue _).value? _ = _
  rw [Function.value?_withValue, if_pos rfl]

/-- **The rule of an instruction**: its operands can be read before, and its value, if there is one, is its own. -/
theorem emit_yields_own (hs : g.Sound) {op : Operation} (huse : ∀ v ∈ op.operands, g.Usable v)
    (hknow : ∀ t n, op = .alloca t n → g.state.unit.Knows t) :
    Yields (Lowering.emit op) g fun v g' => g.state.function.nextInstruction ∈ g'.here ∧
      ∃ x, g'.state.function.value? v = some x ∧ ∀ i, x.kind = .result i → i = g.state.function.nextInstruction := by
  intro v s' h
  obtain ⟨f, hf, rfl⟩ := Lowering.gives_emit.1 h
  obtain ⟨x, ty, hop, hx, hopen, hty, -, -, rfl, rfl⟩ := Function.pushInstruction_gives hf
  have hstep : Step g _ := .emit (s := g.state) (k := g.known) hop hx hopen
    (Function.resultType_eq_ok_iff.1 hty) huse hknow
  have hself := Function.block?_withEmitted hx op ty g.state.current
  rw [if_pos rfl] at hself
  have hon := hstep.onward rfl ⟨_, hself, hopen⟩ rfl (by cases ty <;> rfl)
    (by cases ty <;> simp [Function.withEmitted, Function.put, Function.withInstruction]) rfl
  refine ⟨_, rfl, hon, Or.inr ⟨_, hself, by simp⟩, ?_⟩
  cases ty with
  | none =>
    refine ⟨.nil, hstep.function_grows.value? hs.coherent.absent, ?_⟩
    rintro i ⟨⟩
  | some ty =>
    refine ⟨⟨.result g.state.function.nextInstruction, some ty, g.state.function.variableName⟩, ?_, ?_⟩
    · show (g.state.function.withInstruction op (some ty)).value? _ = _
      rw [Function.value?_withInstruction, if_pos ⟨rfl, rfl⟩]
    · rintro i ⟨⟩
      rfl

/-- Operands that can be read give a result that can be read. -/
theorem emit_yields_known (hs : g.Sound) {op : Operation} (huse : ∀ v ∈ op.operands, g.Usable v)
    (hknow : ∀ t n, op = .alloca t n → g.state.unit.Knows t) :
    Yields (Lowering.emit op) g fun v g' => g'.Usable v := by
  intro v s' h
  obtain ⟨g', hg, ho, hnext, x, hx, hk⟩ := emit_yields_own hs huse hknow v s' h
  exact ⟨g', hg, ho, x, hx, fun i hi => hk i hi ▸ hnext⟩

/-- An instruction that makes no slot. -/
theorem emit_yields (hs : g.Sound) {op : Operation} (huse : ∀ v ∈ op.operands, g.Usable v)
    (hop : ∀ t n, op ≠ .alloca t n) : Yields (Lowering.emit op) g fun v g' => g'.Usable v :=
  emit_yields_known hs huse fun t n h => absurd h (hop t n)

theorem alloca_yields (hs : g.Sound) {ty : LoweredType} (hk : g.state.unit.Knows ty) :
    Yields (Lowering.alloca ty) g fun v g' => g'.Usable v := by
  refine emit_yields_known hs (by simp [Operation.operands]) ?_
  rintro t n ⟨⟩
  exact hk

/-- A constant that fits a type after a change of type fits it. -/
theorem fits_of_retyped {c c' : Constant} {e : Elementary} (h : c.retyped? e = some c') : c'.Fits e := by
  unfold Constant.Fits
  cases c with
  | int v =>
    simp only [Constant.retyped?] at h
    split at h
    · next l r hr =>
      split at h
      · next hb =>
        cases h
        simp [Constant.retyped?, hr, hb]
      · cases h
    · split at h
      · next hf =>
        cases h
        simp [Constant.retyped?, hf]
      · cases h
  | float v =>
    simp only [Constant.retyped?] at h
    split at h
    · next hf =>
      cases h
      simp [Constant.retyped?, hf]
    · cases h
  | bool b =>
    simp only [Constant.retyped?] at h
    split at h
    · next hf =>
      cases h
      simp [Constant.retyped?, hf]
    · cases h

theorem fits_i64 (v : Int64) : (Constant.int v).Fits .i64 := by
  have h₁ := v.le_toInt
  have h₂ := v.toInt_lt
  have h : -9223372036854775808 ≤ v.toInt ∧ v.toInt ≤ 9223372036854775807 := by omega
  simp [Constant.Fits, Constant.retyped?, Elementary.range?, h]

theorem fits_defaultType (c : Constant) : c.Fits c.defaultType := by
  cases c with
  | int v => exact fits_i64 v
  | float v => rfl
  | bool b => rfl

theorem retypedConstant?_fits {f : Function} {v : ValueId} {target : LoweredType} {c : Constant} {e : Elementary}
    (h : Lowering.retypedConstant? f v target = some (c, e)) : c.Fits e := by
  unfold Lowering.retypedConstant? at h
  split at h
  · cases h
  · split at h
    · obtain ⟨c', hc, he⟩ := Option.map_eq_some_iff.1 h
      cases he
      exact fits_of_retyped hc
    · cases h

theorem coerce_yields (hr : g.Ready) {v : ValueId} (hv : g.Usable v) (target : LoweredType) :
    Yields (Lowering.coerce v target) g fun w g' => g'.Usable w := by
  unfold Lowering.coerce
  refine yields_typeOf_bind fun ty _ => ?_
  split
  · exact yields_pure hr hv
  · refine yields_get_bind ?_
    split
    · next c e hc => exact constant_yields hr (retypedConstant?_fits hc)
    · split
      · exact emit_yields hr.sound (by simpa [Operation.operands] using hv) (by simp)
      · exact yields_fault

theorem store_yields (hr : g.Ready) {slot v : ValueId} (hs : g.Usable slot) (hv : g.Usable v) :
    Yields (Lowering.store slot v) g fun _ _ => True := by
  unfold Lowering.store
  refine yields_typeOf_bind fun slotTy _ => yields_typeOf_bind fun ty _ => ?_
  have write : ∀ w g', Onward g g' → g'.Usable w →
      Yields (do let _ ← Lowering.emit (.write slot w); pure ()) g' fun _ _ => True := by
    intro w g' ho hw
    refine (emit_yields (ho.ready hr).sound ?_ (by simp)).bind fun _ g'' ho' _ =>
      yields_pure (ho'.ready (ho.ready hr)) trivial
    simpa [Operation.operands] using ⟨ho.usable hs, hw⟩
  dsimp only
  split
  · exact (emit_yields hr.sound (by simpa [Operation.operands] using hv) (by simp)).bind write
  · exact (coerce_yields hr hv _).bind write

theorem load_yields (hr : g.Ready) {slot : ValueId} (hs : g.Usable slot) :
    Yields (Lowering.load slot) g fun v g' => g'.Usable v := by
  unfold Lowering.load
  refine yields_typeOf_bind fun ty _ => ?_
  split
  · exact yields_pure hr hs
  · exact emit_yields hr.sound (by simpa [Operation.operands] using hs) (by simp)

end Site

end BlockForm
