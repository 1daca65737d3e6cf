import BlockForm.Proofs.Straight
import BlockForm.Proofs.Effects

/-!
# BlockForm.Proofs.Conventions — what stands for a value

An elementary value stands for itself, a composite is stood for by its address, and a name by the slot that holds its
value.  `LoweredType.isRepresentative` says this of a type, and `LoweringState.Conventional` says of a state that its
names keep to it and that what lowering takes from the unit does: functions return values and no addresses, and
literals are strings.

Everything but the names is kept by every effect of lowering (`Effects.grounded`); the names are kept by whatever
leaves the scopes alone (`Neutral`), and a name that is added must have an address.  Each of the helpers that give a
value gives a representative.
-/

namespace BlockForm

open Action

/-- The type of what stands for a value: an elementary value itself, or the address of a composite. -/
def LoweredType.isRepresentative (ty : LoweredType) : Bool := ty.isScalar || (ty.isPointer && ty.isComposite)

namespace LoweredType

variable {ty : LoweredType}

theorem isRepresentative_of_isScalar (h : ty.isScalar = true) : ty.isRepresentative = true := by
  simp [isRepresentative, h]

theorem isRepresentative_pointerTo (h : ty.isComposite = true) : ty.pointerTo.isRepresentative = true := by
  have hc : ty.pointerTo.isComposite = true := h
  rw [isRepresentative, hc]
  exact Bool.or_true _

/-- What is no address and no composite is an elementary value. -/
theorem isScalar_of_not_isComposite (hp : ty.isPointer = false) (hc : ty.isComposite = false) : ty.isScalar = true := by
  obtain ⟨_ | id, pointer⟩ := ty
  · simp_all [isScalar, isElementary, elementary?]
  · cases hc

theorem isComposite_of_elementary? (h : ty.elementary? = none) : ty.isComposite = true := by
  obtain ⟨_ | id, pointer⟩ := ty
  · cases h
  · rfl

theorem isScalar_of_isNumeric (h : ty.isNumeric = true) : ty.isScalar = true := by
  simp only [isNumeric, Bool.and_eq_true] at h
  rw [isScalar, h.1, isElementary, Option.isSome_of_any h.2]
  rfl

theorem isScalar_of_isBool (h : ty.isBool = true) : ty.isScalar = true := by
  rw [eq_bool_of_isBool h]
  rfl

end LoweredType

namespace Function

variable {f g : Function} {v : ValueId}

/-- The value stands for an elementary value or for a composite. -/
def Represents (f : Function) (v : ValueId) : Prop := ∃ ty, f.valueType? v = some ty ∧ ty.isRepresentative = true

/-- The value is an address. -/
def IsAddress (f : Function) (v : ValueId) : Prop := ∃ ty, f.valueType? v = some ty ∧ ty.isPointer = true

theorem Represents.grow (h : f.Represents v) (hg : f.Grows g) : g.Represents v := by
  obtain ⟨ty, hty, hr⟩ := h
  exact ⟨ty, hg.valueType? hty, hr⟩

theorem IsAddress.grow (h : f.IsAddress v) (hg : f.Grows g) : g.IsAddress v := by
  obtain ⟨ty, hty, hp⟩ := h
  exact ⟨ty, hg.valueType? hty, hp⟩

end Function

/-- Functions return no addresses, and literals are strings. -/
structure CompilationUnit.Conventional (u : CompilationUnit) : Prop where
  results : ∀ {name f}, u.function? name = some f → f.returnType.isPointer = false
  literals : ∀ l ∈ u.globals.values, l.ty = .elementary .string

theorem CompilationUnit.Conventional.internLiteral {u u' : CompilationUnit} (hu : u.Conventional) {content : String}
    {id : GlobalId} (h : Gives (internLiteral content) u id u') : u'.Conventional := by
  rcases internLiteral_gives h with ⟨-, rfl⟩ | ⟨hk, -, -, -, rfl⟩
  · exact hu
  · refine ⟨hu.results, fun l hl => ?_⟩
    simp only [Table.values, Table.entries_insert_of_not_mem hk, List.map_append, List.map_cons, List.map_nil,
      List.mem_append, List.mem_singleton] at hl
    rcases hl with hl | rfl
    · exact hu.literals l hl
    · rfl

theorem CompilationUnit.Conventional.congr {u u' : CompilationUnit} (hu : u.Conventional)
    (hf : u'.functions = u.functions) (hg : u'.globals = u.globals) : u'.Conventional :=
  ⟨fun h => hu.results (by rwa [function?, ← hf]), fun l hl => hu.literals l (hg ▸ hl)⟩

theorem CompilationUnit.Conventional.lowerType {u u' : CompilationUnit} (hu : u.Conventional) {ty : Ty}
    {t : LoweredType} (h : Gives (lowerType ty) u t u') : u'.Conventional :=
  hu.congr (extends_of_lowerType h).functions (globals_of_lowerType h)

namespace LoweringState

/-- What lowering takes from the unit and from the function, names aside, is as it should be. -/
structure Grounded (s : LoweringState) : Prop where
  unit : s.unit.Conventional
  absent : s.function.value? Function.nilValue = some .nil
  literals : ∀ p ∈ s.function.literals, s.function.valueType? p.2 = some (.elementary .string)

/-- Every name in scope stands for an address. -/
def SlotsAreAddresses (s : LoweringState) : Prop := ∀ scope ∈ s.scopes, ∀ p ∈ scope, s.function.IsAddress p.2

/-- The state keeps to the conventions. -/
structure Conventional (s : LoweringState) : Prop extends Grounded s where
  slots : s.SlotsAreAddresses

variable {s s' : LoweringState}

/-- A scope without names is opened. -/
theorem Conventional.enter (hs : s.Conventional) : Conventional { s with scopes := [] :: s.scopes } :=
  ⟨⟨hs.unit, hs.absent, hs.literals⟩, List.forall_mem_cons.2 ⟨nofun, hs.slots⟩⟩

/-- The function has grown, by no literal. -/
theorem Grounded.grow (hs : s.Grounded) {f : Function} (hg : s.function.Grows f)
    (hlit : f.literals = s.function.literals) (b : BlockId) : Grounded { s with function := f, current := b } :=
  ⟨hs.unit, hg.value? hs.absent, fun p hp => hg.valueType? (hs.literals p (hlit ▸ hp))⟩

/-- The value of a literal is a string. -/
theorem Grounded.literal (hs : s.Grounded) {id : GlobalId} {l : Global} {v : ValueId} {f : Function}
    (hl : s.unit.globalAt? id = some l) (h : Gives (Function.literal id l) s.function v f) :
    Grounded { s with function := f } ∧ f.valueType? v = some (.elementary .string) := by
  obtain ⟨e, he, rfl⟩ := Option.map_eq_some_iff.1 hl
  have hty := hs.unit.literals _ (List.mem_map_of_mem (List.mem_of_getElem? he))
  rcases Function.literal_gives h with ⟨hfound, rfl⟩ | ⟨-, -, rfl, rfl⟩
  · exact ⟨hs, hs.literals _ (mem_of_lookup hfound)⟩
  · have hg := Function.grows_withLiteral (f := s.function) id ⟨.literal id e.2.content, some e.2.ty, e.2.name⟩
    have hnew : (s.function.withLiteral id ⟨.literal id e.2.content, some e.2.ty, e.2.name⟩).valueType?
        s.function.nextValue = some (.elementary .string) := by
      show ((s.function.withValue _).value? _).bind Value.ty = _
      rw [Function.value?_withValue, if_pos rfl, ← hty]
      rfl
    refine ⟨⟨hs.unit, hg.value? hs.absent, fun p hp => ?_⟩, hnew⟩
    rcases List.mem_append.1 hp with hp | hp
    · exact hg.valueType? (hs.literals p hp)
    · rw [List.mem_singleton.1 hp]
      exact hnew

theorem Effect.grounded (h : Effect s s') (hs : s.Grounded) : s'.Grounded := by
  have hg := h.grows
  cases h with
  | scopes => exact ⟨hs.unit, hs.absent, hs.literals⟩
  | lowerType h => exact ⟨hs.unit.lowerType h, hs.absent, hs.literals⟩
  | @literal _ _ _ _ u _ hu hl hf =>
    have hs' : Grounded { s with unit := u } := ⟨hs.unit.internLiteral hu, hs.absent, hs.literals⟩
    exact (hs'.literal hl hf).1
  | emit _ _ op ty => exact hs.grow hg (by cases ty <;> rfl) _
  | _ => exact hs.grow hg rfl _

/-- **Every effect keeps what is not a matter of names.** -/
theorem Effects.grounded (h : Effects s s') (hs : s.Grounded) : s'.Grounded :=
  h.keeps (P := Grounded) (fun he ht => he.grounded ht) hs

/-- Lowering has gone on and has kept to the conventions. -/
structure Onward (s s' : LoweringState) : Prop where
  conventional : s'.Conventional
  grows : s.function.Grows s'.function

end LoweringState

namespace Lowering

open LoweringState

variable {α β : Type} {s s' : LoweringState} {v : ValueId} {a : Unit}

/-! ## Steps that name nothing -/

/-- A successful run of the step has effects, and leaves the scopes as they were. -/
def Neutral (x : Lowering α) : Prop := ∀ s a s', Gives x s a s' → Effects s s' ∧ s'.scopes = s.scopes

theorem Neutral.bind {x : Lowering α} {k : α → Lowering β} (hx : Neutral x) (hk : ∀ a, Neutral (k a)) :
    Neutral (x >>= k) := by
  intro s b s' h
  obtain ⟨a, t, h₁, h₂⟩ := gives_bind.1 h
  obtain ⟨he₁, hs₁⟩ := hx s a t h₁
  obtain ⟨he₂, hs₂⟩ := hk a t b s' h₂
  exact ⟨he₁.trans he₂, hs₂.trans hs₁⟩

theorem Made.neutral {x : Lowering α} {P : α → Prop} (hm : Made (fun _ => True) x P)
    (hx : ∀ s a s', Gives x s a s' → s'.scopes = s.scopes) : Neutral x :=
  fun s a s' h => ⟨(hm.effects h).2, hx s a s' h⟩

theorem Straight.neutral {x : Lowering α} {P : α → Prop} (hx : Straight x) (hm : Made (fun _ => True) x P) :
    Neutral x :=
  hm.neutral fun s a s' h => (hx s a s' h).scopes

theorem neutral_pure (a : α) : Neutral (pure a) := (Straight.pure a).neutral (.pure (P := fun _ => True) trivial)

/-- A step on the function that is one of the primitive ones. -/
theorem neutral_inFunction {x : Building α} {P : α → Prop} (h : Made (fun _ => True) (inFunction x) P) :
    Neutral (inFunction x) :=
  h.neutral fun s a s' hrun => by
    obtain ⟨f, -, rfl⟩ := gives_inFunction.1 hrun
    rfl

theorem neutral_newBlock : Neutral newBlock := neutral_inFunction .newBlock

theorem neutral_startBlock (b : BlockId) : Neutral (startBlock b) := (Made.startBlock b).neutral fun s a s' h => by
  obtain ⟨f, -, rfl⟩ := gives_startBlock.1 h
  rfl

theorem neutral_leave {e : Exit} : Neutral (leave e) := (Made.leave fun _ _ => trivial).neutral fun s a s' h => by
  obtain ⟨f, -, rfl⟩ := gives_leave.1 h
  rfl

theorem neutral_isTerminated : Neutral isTerminated := Made.isTerminated.neutral fun s b s' h => by
  obtain ⟨-, rfl⟩ := gives_isTerminated.1 h
  rfl

theorem neutral_report (e : Event) : Neutral (Action.report e) := (Made.report e).neutral fun s a s' h => by
  obtain rfl := gives_report.1 h
  rfl

theorem neutral_branchTo (b : BlockId) : Neutral (branchTo b) := by
  refine neutral_isTerminated.bind fun terminated => ?_
  split
  · exact neutral_pure ()
  · exact (neutral_inFunction (.labelOf b)).bind fun _ => neutral_leave

theorem neutral_branchOn (condition : ValueId) (taken otherwise : BlockId) :
    Neutral (branchOn condition taken otherwise) := by
  refine (neutral_inFunction (.labelOf taken)).bind fun _ => ?_
  exact (neutral_inFunction (.labelOf otherwise)).bind fun _ => neutral_leave

theorem neutral_emit (op : Operation) : Neutral (emit op) := (Straight.emit op).neutral (.emit fun _ _ => trivial)

theorem neutral_coerce (v : ValueId) (target : LoweredType) : Neutral (coerce v target) :=
  (Straight.coerce v target).neutral (.coerce trivial target)

theorem neutral_store (slot v : ValueId) : Neutral (store slot v) :=
  (Straight.store slot v).neutral (.store trivial trivial)

theorem neutral_prepare (memory : ValueId) (plan : FillPlan) : Neutral (prepare memory plan) :=
  (Straight.prepare memory plan).neutral (.prepare trivial plan)

theorem neutral_storeArgument (site : FillSite) (index : Nat) (v : ValueId) : Neutral (storeArgument site index v) :=
  (Straight.storeArgument site index v).neutral (.storeArgument trivial index trivial)

theorem neutral_caseTargets (indices : List (List Nat)) : Neutral (caseTargets indices) := by
  induction indices with
  | nil => exact neutral_pure []
  | cons is rest ih => exact neutral_newBlock.bind fun _ => ih.bind fun _ => neutral_pure _

theorem neutral_dispatch (discriminant : ValueId) (fatal : BlockId) (tests : List (Nat × BlockId)) :
    Neutral (dispatch discriminant fatal tests) := by
  have tested : ∀ index, Neutral (testMember discriminant index) := fun index =>
    (Straight.testMember discriminant index).neutral (.testMember trivial index)
  induction tests with
  | nil => exact neutral_branchTo fatal
  | cons p rest ih =>
    obtain ⟨index, block⟩ := p
    cases rest with
    | nil => exact (tested index).bind fun _ => neutral_branchOn _ _ _
    | cons q rest =>
      exact (tested index).bind fun _ => neutral_newBlock.bind fun _ => (neutral_branchOn _ _ _).bind fun _ =>
        (neutral_startBlock _).bind fun _ => ih

/-! ## Runs that keep to the conventions -/

/-- Every successful run of the step from `s` keeps to the conventions and ends as `Q` says. -/
def Yields (x : Lowering α) (s : LoweringState) (Q : α → LoweringState → Prop) : Prop :=
  ∀ a s', Gives x s a s' → s.Onward s' ∧ Q a s'

theorem yields_pure {a : α} {Q : α → LoweringState → Prop} (hs : s.Conventional) (h : Q a s) : Yields (pure a) s Q := by
  intro b s' hrun
  obtain ⟨rfl, rfl⟩ := gives_pure.1 hrun
  exact ⟨⟨hs, .refl _⟩, h⟩

theorem Yields.bind {x : Lowering α} {k : α → Lowering β} {P : α → LoweringState → Prop} {Q : β → LoweringState → Prop}
    (hx : Yields x s P) (hk : ∀ a t, s.Onward t → P a t → Yields (k a) t Q) : Yields (x >>= k) s Q := by
  intro b s' h
  obtain ⟨a, t, h₁, h₂⟩ := gives_bind.1 h
  obtain ⟨ho, ha⟩ := hx a t h₁
  obtain ⟨ho', hb⟩ := hk a t ho ha b s' h₂
  exact ⟨⟨ho'.conventional, ho.grows.trans ho'.grows⟩, hb⟩

theorem Yields.conventional {x : Lowering α} {Q : α → LoweringState → Prop} {a : α} (hx : Yields x s Q)
    (h : Gives x s a s') : s'.Conventional := (hx a s' h).1.conventional

theorem Yields.mono {x : Lowering α} {P Q : α → LoweringState → Prop} (hx : Yields x s P)
    (h : ∀ a s', P a s' → Q a s') : Yields x s Q := by
  intro a s' hrun
  obtain ⟨ho, hP⟩ := hx a s' hrun
  exact ⟨ho, h a s' hP⟩

theorem yields_fault {f : Fault} {Q : α → LoweringState → Prop} : Yields (Action.fault f) s Q :=
  fun _ _ h => absurd h not_gives_fault

theorem yields_fail {e : Error} {Q : α → LoweringState → Prop} : Yields (Action.fail e) s Q :=
  fun _ _ h => absurd h not_gives_fail

/-- A step that names nothing keeps to the conventions; what it gives is to be known from elsewhere. -/
theorem Neutral.yields {x : Lowering α} {Q : α → LoweringState → Prop} (hx : Neutral x) (hs : s.Conventional)
    (hQ : ∀ a s', Gives x s a s' → Q a s') : Yields x s Q := by
  intro a s' h
  obtain ⟨he, hscopes⟩ := hx s a s' h
  have hslots : s'.SlotsAreAddresses := fun scope hm p hp => (hs.slots scope (hscopes ▸ hm) p hp).grow he.grows
  exact ⟨⟨⟨he.grounded hs.toGrounded, hslots⟩, he.grows⟩, hQ a s' h⟩

theorem Neutral.goes {x : Lowering α} (hx : Neutral x) (hs : s.Conventional) : Yields x s fun _ _ => True :=
  hx.yields hs fun _ _ _ => trivial

/-- A scope that is opened around a step is closed after it. -/
theorem yields_inScope {x : Lowering α} (hs : s.Conventional)
    (hx : ∀ {t}, t.Conventional → Yields x t fun _ _ => True) : Yields (inScope x) s fun _ _ => True := by
  intro a s' h
  obtain ⟨t, ht, rfl⟩ := gives_inScope.1 h
  obtain ⟨⟨hc, hg⟩, -⟩ := hx hs.enter a t ht
  exact ⟨⟨⟨⟨hc.unit, hc.absent, hc.literals⟩, fun scope hm => hc.slots scope (List.mem_of_mem_tail hm)⟩, hg⟩, trivial⟩

/-- A name is given an address. -/
theorem yields_define {name : String} (hs : s.Conventional) (hv : s.function.IsAddress v) :
    Yields (define name v) s fun _ _ => True := by
  intro a s' h
  obtain rfl := gives_modify.1 h
  split
  · exact ⟨⟨hs, .refl _⟩, trivial⟩
  · next scope rest hscopes =>
    have hold : ∀ scope ∈ s.scopes, ∀ p ∈ scope, s.function.IsAddress p.2 := hs.slots
    rw [hscopes, List.forall_mem_cons] at hold
    have hfirst : ∀ p ∈ (name, v) :: scope, s.function.IsAddress p.2 := List.forall_mem_cons.2 ⟨hv, hold.1⟩
    exact ⟨⟨⟨⟨hs.unit, hs.absent, hs.literals⟩, List.forall_mem_cons.2 ⟨hfirst, hold.2⟩⟩, .refl _⟩, trivial⟩

/-! ## What steps give -/

/-- The value of an instruction has the type of its result; without a result it is the absent one. -/
theorem emit_value {op : Operation} (hs : s.Grounded) (h : Gives (emit op) s v s') :
    ∃ ty, s.function.Types s.unit op ty ∧ s'.unit = s.unit ∧ (ty = none → v = Function.nilValue) ∧
      ∀ t, ty = some t → v ≠ Function.nilValue ∧ s'.function.valueType? v = some t := by
  obtain ⟨x, ty, hx, hopen, hty, rfl, rfl⟩ := emit_gives h
  refine ⟨ty, hty, rfl, ?_, ?_⟩
  · rintro rfl
    rfl
  · rintro t rfl
    refine ⟨fun hnil => ?_, ?_⟩
    · have hlt := Function.value?_lt hs.absent
      have hindex : s.function.values.size = 0 := congrArg Handle.index hnil
      omega
    · have hvalue := Function.value?_withInstruction (f := s.function) op (some t) s.function.nextValue
      rw [if_pos ⟨rfl, rfl⟩] at hvalue
      show ((s.function.withInstruction op (some t)).value? s.function.nextValue).bind Value.ty = some t
      rw [hvalue]
      rfl

theorem alloca_yields {ty : LoweredType} (hs : s.Conventional) :
    Yields (alloca ty) s fun v s' => s'.function.valueType? v = some ty.pointerTo := by
  refine (neutral_emit _).yields hs fun v s' h => ?_
  obtain ⟨t, ht, -, -, hvalue⟩ := emit_value hs.toGrounded h
  cases ht with
  | alloca => exact (hvalue _ rfl).2

/-- The address of the payload of a union. -/
theorem unionMemberAt_yields {subject : ValueId} {index : Nat} (hs : s.Conventional) :
    Yields (emit (.unionMemberAt subject index)) s fun v s' => s'.function.IsAddress v := by
  refine (neutral_emit _).yields hs fun v s' h => ?_
  obtain ⟨t, ht, -, -, hvalue⟩ := emit_value hs.toGrounded h
  cases ht with
  | unionMemberAt => exact ⟨_, (hvalue _ rfl).2, rfl⟩

theorem lowerType_yields (hs : s.Conventional) (ty : Ty) :
    Yields (lowerType ty) s fun t _ => t.isPointer = false ∧ t.elementary? = ty.elementary? := by
  refine ((Straight.lowerType ty).neutral (.lowerType ty)).yields hs fun t s' h => ?_
  obtain ⟨u, hu, -⟩ := gives_inUnit.1 h
  rcases CompilationUnit.lowerType_key hu with ⟨e, he, rfl⟩ | ⟨he, -, id, -, rfl⟩
  · exact ⟨rfl, he.symm⟩
  · exact ⟨rfl, he.symm⟩

theorem constant_yields (hs : s.Conventional) {c : Constant} {e : Elementary} (hfits : c.Fits e) :
    Yields (constant c e) s fun v s' => s'.function.Represents v := by
  refine ((Straight.constant c e).neutral (.constant hfits)).yields hs fun v s' h => ?_
  obtain ⟨f, hf, rfl⟩ := gives_inFunction.1 h
  obtain ⟨-, rfl, rfl⟩ := Function.constant_gives.1 hf
  refine ⟨.elementary e, ?_, rfl⟩
  rw [Function.valueType?, Function.value?_withValue, if_pos rfl]
  rfl

theorem lowerConstant_yields (hs : s.Conventional) (c : Constant) (ty : Ty) :
    Yields (lowerConstant c ty) s fun v s' => s'.function.Represents v := by
  unfold lowerConstant
  split
  · next typed e he =>
    obtain ⟨_, -, hretyped⟩ := Option.bind_eq_some_iff.1 he
    obtain ⟨_, hretyped, heq⟩ := Option.map_eq_some_iff.1 hretyped
    cases heq
    exact constant_yields hs (Site.fits_of_retyped hretyped)
  · exact constant_yields hs (Site.fits_defaultType c)

theorem lowerLiteral_yields (hs : s.Conventional) (content : String) :
    Yields (lowerLiteral content) s fun v s' => s'.function.Represents v := by
  refine ((Straight.lowerLiteral content).neutral (.lowerLiteral content)).yields hs fun v s' h => ?_
  obtain ⟨id, l, u, f, hu, hl, hf, rfl⟩ := lowerLiteral_gives h
  have hs' : Grounded { s with unit := u } := ⟨hs.unit.internLiteral hu, hs.absent, hs.literals⟩
  exact ⟨_, (hs'.literal hl hf).2, rfl⟩

theorem yields_get_bind {k : LoweringState → Lowering β} {Q : β → LoweringState → Prop} (hk : Yields (k s) s Q) :
    Yields (Action.get >>= k) s Q := fun b s' h => hk b s' (gives_get_bind.1 h)

theorem yields_need_bind {o : Option α} {f : Fault} {k : α → Lowering β} {Q : β → LoweringState → Prop}
    (hk : ∀ a, o = some a → Yields (k a) s Q) : Yields (Action.need o f >>= k) s Q := by
  intro b s' h
  obtain ⟨a, ha, h⟩ := gives_need_bind.1 h
  exact hk a ha b s' h

theorem yields_slotOf_bind {name : String} {k : ValueId → Lowering β} {Q : β → LoweringState → Prop}
    (hs : s.Conventional) (hk : ∀ slot, s.function.IsAddress slot → Yields (k slot) s Q) :
    Yields (slotOf name >>= k) s Q := by
  intro b s' h
  obtain ⟨slot, t, hslot, h⟩ := gives_bind.1 h
  obtain ⟨hfound, rfl⟩ := gives_slotOf.1 hslot
  obtain ⟨scope, hscope, hl⟩ := List.exists_of_findSome?_eq_some hfound
  exact hk slot (hs.slots scope hscope _ (mem_of_lookup hl)) b s' h

theorem yields_typeOf_bind {k : LoweredType → Lowering β} {Q : β → LoweringState → Prop}
    (hk : ∀ ty, s.function.valueType? v = some ty → Yields (k ty) s Q) : Yields (typeOf v >>= k) s Q := by
  intro b s' h
  obtain ⟨ty, t, hread, h⟩ := gives_bind.1 h
  obtain ⟨hop, rfl⟩ := gives_typeOf.1 hread
  exact hk ty (Function.operandType_eq_ok_iff_valueType?.1 hop) b s' h

/-- What is read from a slot, or the slot itself where it holds a composite, stands for what the slot holds. -/
theorem load_yields {slot : ValueId} (hs : s.Conventional) (hslot : s.function.IsAddress slot) :
    Yields (load slot) s fun v s' => s'.function.Represents v := by
  obtain ⟨ty, hty, hp⟩ := hslot
  refine yields_typeOf_bind fun ty' hty' => ?_
  obtain rfl := Option.some.inj (hty.symm.trans hty')
  split
  · next hc => exact yields_pure hs ⟨ty, hty, by simp [LoweredType.isRepresentative, hp, hc]⟩
  · next hc =>
    have hc : ty.isComposite = false := by simpa using hc
    refine (neutral_emit _).yields hs fun v s' h => ?_
    obtain ⟨t, ht, -, -, hvalue⟩ := emit_value hs.toGrounded h
    cases ht with
    | read hmem _ =>
      obtain rfl := Option.some.inj (hty.symm.trans hmem)
      have hscalar : ty.pointee.isScalar = true := LoweredType.isScalar_of_not_isComposite rfl hc
      exact ⟨_, (hvalue _ rfl).2, LoweredType.isRepresentative_of_isScalar hscalar⟩

/-- A representative that is made to fit a type is a representative. -/
theorem coerce_yields {target : LoweredType} (hs : s.Conventional)
    (hv : ∀ ty, s.function.valueType? v = some ty → ty.isRepresentative = true) :
    Yields (coerce v target) s fun w s' => s'.function.Represents w := by
  refine yields_typeOf_bind fun ty hty => ?_
  split
  · exact yields_pure hs ⟨ty, hty, hv ty hty⟩
  · refine yields_get_bind ?_
    split
    · next hc => exact constant_yields hs (Site.retypedConstant?_fits hc)
    · split
      · refine (neutral_emit _).yields hs fun w s' h => ?_
        obtain ⟨t, ht, -, -, hvalue⟩ := emit_value hs.toGrounded h
        cases ht with
        | convert _ _ hscalar => exact ⟨_, (hvalue _ rfl).2, LoweredType.isRepresentative_of_isScalar hscalar⟩
      · exact yields_fault

/-- Two operands that have been made to fit are joined in an elementary value, whatever the operator. -/
theorem lowerOperator_yields (hs : s.Conventional) (op : BinaryOperator) (ty : Ty) (lhs rhs : ValueId) :
    Yields (lowerOperator op ty lhs rhs) s fun v s' => s'.function.Represents v := by
  have joined : ∀ {s : LoweringState} (target : LoweredType) (join : ValueId → ValueId → Operation), s.Conventional →
      (∀ l r {f : Function} {u t}, f.Types u (join l r) t → ∃ t', t = some t' ∧ t'.isScalar = true) → Yields (do
        let left ← coerce lhs target
        let right ← coerce rhs target
        emit (join left right)) s fun v s' => s'.function.Represents v := by
    intro s target join hs hjoin
    refine ((neutral_coerce lhs target).goes hs).bind fun left s₁ h₁ _ => ?_
    refine ((neutral_coerce rhs target).goes h₁.conventional).bind fun right s₂ h₂ _ => ?_
    refine (neutral_emit _).yields h₂.conventional fun v s' h => ?_
    obtain ⟨t, ht, -, -, hvalue⟩ := emit_value h₂.conventional.toGrounded h
    obtain ⟨t', rfl, hscalar⟩ := hjoin left right ht
    exact ⟨t', (hvalue t' rfl).2, LoweredType.isRepresentative_of_isScalar hscalar⟩
  unfold lowerOperator
  cases op.class with
  | arith op =>
    refine (lowerType_yields hs ty).bind fun target s₁ h₁ _ => joined target (.arith op) h₁.conventional ?_
    intro l r f u t ht
    cases ht with
    | arith _ _ hn => exact ⟨_, rfl, LoweredType.isScalar_of_isNumeric hn⟩
  | cmp op =>
    refine yields_typeOf_bind fun _ _ => yields_typeOf_bind fun _ _ => yields_get_bind (joined _ (.cmp op) hs ?_)
    intro l r f u t ht
    cases ht with
    | cmp => exact ⟨_, rfl, rfl⟩
  | logic op =>
    refine joined _ (.logic op) hs ?_
    intro l r f u t ht
    cases ht with
    | logic _ _ hb _ => exact ⟨_, rfl, LoweredType.isScalar_of_isBool hb⟩

/-- The result of a call is put in a slot if it is a composite; it is absent only where the function returns nothing. -/
theorem finishCall_yields (hs : s.Conventional) (name : String) (args : List ValueId) :
    Yields (finishCall name args) s fun v s' => s'.function.Represents v ∨
      (v = Function.nilValue ∧ ∃ f, s'.unit.function? name = some f ∧ f.returnType.isNil = true) := by
  have called : Yields (emit (.call name args)) s fun v s' => ∃ f, s'.unit.function? name = some f ∧
      f.returnType.isPointer = false ∧ (v = Function.nilValue → f.returnType.isNil = true) ∧
      (v ≠ Function.nilValue → s'.function.valueType? v = some f.returnType) := by
    refine (neutral_emit _).yields hs fun v s' h => ?_
    obtain ⟨t, ht, hunit, hnone, hvalue⟩ := emit_value hs.toGrounded h
    cases ht with
    | @call _ _ f hf _ =>
      refine ⟨f, hunit ▸ hf, hs.unit.results hf, ?_⟩
      by_cases hn : f.returnType.isNil = true
      · have hv := hnone (if_pos hn)
        exact ⟨fun _ => hn, fun h => absurd hv h⟩
      · have hv := hvalue f.returnType (if_neg hn)
        exact ⟨fun h => absurd h hv.1, fun _ => hv.2⟩
  refine called.bind fun v t ht hcall => ?_
  obtain ⟨f, hf, hp, hnil, hsome⟩ := hcall
  split
  · next hv => exact yields_pure ht.conventional (Or.inr ⟨hv, f, hf, hnil hv⟩)
  · next hv =>
    refine yields_typeOf_bind fun ty hty => ?_
    obtain rfl := Option.some.inj ((hsome hv).symm.trans hty)
    split
    · next hc =>
      refine (alloca_yields ht.conventional).bind fun slot t₁ h₁ hslot => ?_
      refine ((neutral_store slot v).goes h₁.conventional).bind fun _ t₂ h₂ _ => ?_
      exact yields_pure h₂.conventional
        (Or.inl ⟨_, h₂.grows.valueType? hslot, LoweredType.isRepresentative_pointerTo hc⟩)
    · next hc =>
      have hscalar := LoweredType.isScalar_of_not_isComposite hp (by simpa using hc)
      exact yields_pure ht.conventional (Or.inl ⟨_, hty, LoweredType.isRepresentative_of_isScalar hscalar⟩)

/-- A match has a slot for its result, unless its type is `nil`. -/
theorem resultSlot_yields (hs : s.Conventional) (ty : Ty) :
    Yields (resultSlot ty) s fun slot s' =>
      (slot = none ∧ ty.isNil = true) ∨ ∃ w, slot = some w ∧ s'.function.IsAddress w := by
  refine (lowerType_yields hs ty).bind fun lowered t ht hlowered => ?_
  obtain ⟨-, he⟩ := hlowered
  split
  · next hn =>
    simp only [LoweredType.isNil, Bool.and_eq_true, he] at hn
    exact yields_pure ht.conventional (Or.inl ⟨rfl, hn.2⟩)
  · refine (alloca_yields ht.conventional).bind fun slot t₁ h₁ hslot => ?_
    exact yields_pure h₁.conventional (Or.inr ⟨slot, rfl, _, hslot, rfl⟩)

end Lowering

end BlockForm
