import BlockForm.Lowering.Program
import BlockForm.Proofs.Region

/-!
# BlockForm.Proofs.Primitives — the steps that lowering is made of

Lowering touches the unit and the function through few steps only.  `Lowering.Made own x P` says that `x` is put
together from them, that every value it hands to an instruction, a condition or a scope satisfies `own`, and that what
it gives satisfies `P`; the values that steps give may be relied on to satisfy `own` in turn.  Every part of lowering is
made so, by the recursion of the definitions.  What each of the steps keeps, whether it succeeds or not, is then kept by
all of lowering: one induction over `Made` in the place of one walk for each property.
-/

namespace BlockForm

open Action

namespace Lowering

/-- A string is interned in the unit, and the literal found there gets a value in the function. -/
theorem lowerLiteral_gives {content : String} {v : ValueId} {s s' : LoweringState}
    (h : Gives (lowerLiteral content) s v s') :
    ∃ id l u f, Gives (CompilationUnit.internLiteral content) s.unit id u ∧ u.globalAt? id = some l ∧
      Gives (Function.literal id l) s.function v f ∧ s' = { s with unit := u, function := f } := by
  simp only [lowerLiteral, gives_bind (x := inUnit _), gives_inUnit, gives_get_bind, gives_need_bind,
    gives_inFunction] at h
  obtain ⟨id, _, ⟨u, hu, rfl⟩, l, hl, f, hf, rfl⟩ := h
  exact ⟨id, l, u, f, hu, hl, hf, rfl⟩

/-- The step is made of primitive ones, handing on values that satisfy `own` and giving what satisfies the
predicate. -/
inductive Made (own : ValueId → Prop) : {α : Type} → Lowering α → (α → Prop) → Prop where
  | pure {α : Type} {P : α → Prop} {a : α} (h : P a) : Made own (Pure.pure a) P
  /-- The absent value is what a match without a result gives. -/
  | absent : Made own (Pure.pure Function.nilValue) own
  | bind {α β : Type} {x : Lowering α} {k : α → Lowering β} {P : α → Prop} {Q : β → Prop} (hx : Made own x P)
      (hk : ∀ a, P a → Made own (k a) Q) : Made own (x >>= k) Q
  /-- The slot for the returned value can be read off the state. -/
  | get : Made own Action.get fun s => ∀ slot, s.function.returnSlot = some slot → own slot
  | fail {α : Type} {P : α → Prop} (e : Error) : Made own (Action.fail e) P
  | fault {α : Type} {P : α → Prop} (f : Fault) : Made own (Action.fault f) P
  | report (e : Event) : Made own (Action.report e) fun _ => True
  | inScope {α : Type} {x : Lowering α} {P : α → Prop} (h : Made own x P) : Made own (inScope x) P
  | define {slot : ValueId} (h : own slot) (name : String) : Made own (define name slot) fun _ => True
  | slotOf (name : String) : Made own (slotOf name) own
  | lowerType (ty : Ty) : Made own (lowerType ty) fun _ => True
  | constant {c : Constant} {e : Elementary} (h : c.Fits e) : Made own (constant c e) own
  /-- A string is interned and gets its value at once. -/
  | lowerLiteral (content : String) : Made own (lowerLiteral content) own
  | newBlock : Made own newBlock fun _ => True
  | labelOf (b : BlockId) : Made own (inFunction (Function.labelOf b)) fun _ => True
  | startBlock (b : BlockId) : Made own (startBlock b) fun _ => True
  | emit {operation : Operation} (h : ∀ v ∈ operation.operands, own v) : Made own (emit operation) own
  | leave {exit : Exit} (h : ∀ v ∈ exit.conditions, own v) : Made own (leave exit) fun _ => True
  | setReturnSlot {slot : ValueId} (h : own slot) : Made own (inFunction (Function.setReturnSlot slot)) fun _ => True
  | setReturn (u : CompilationUnit) (b : BlockId) {value : Option ValueId} (h : ∀ v, value = some v → own v) :
      Made own (inFunction (Function.setReturn u b value)) fun _ => True

namespace Made

variable {own : ValueId → Prop} {α β : Type}

/-! ## Steps -/

theorem get_bind {k : LoweringState → Lowering β} {Q : β → Prop}
    (hk : ∀ s, (∀ slot, s.function.returnSlot = some slot → own slot) → Made own (k s) Q) :
    Made own (Action.get >>= k) Q := get.bind hk

theorem check (r : Except Fault α) : Made own (Action.check r) fun _ => True := by
  cases r with
  | error f => exact fault f
  | ok a => exact pure trivial

theorem need (o : Option α) (f : Fault) : Made own (Action.need o f) fun a => o = some a := by
  cases o with
  | none => exact fault f
  | some a => exact pure rfl

theorem functionName : Made own functionName fun _ => True := get_bind fun _ _ => pure trivial

theorem typeOf (v : ValueId) : Made own (typeOf v) fun _ => True := get_bind fun _ _ => check _

theorem isTerminated : Made own isTerminated fun _ => True := get_bind fun _ _ => pure trivial

theorem branchTo (b : BlockId) : Made own (branchTo b) fun _ => True := by
  refine isTerminated.bind fun terminated _ => ?_
  split
  · exact pure trivial
  · exact (labelOf b).bind fun _ _ => leave nofun

theorem branchOn {condition : ValueId} (h : own condition) (taken otherwise : BlockId) :
    Made own (branchOn condition taken otherwise) fun _ => True := by
  refine (labelOf taken).bind fun _ _ => (labelOf otherwise).bind fun _ _ => leave ?_
  intro v hv
  rw [List.mem_singleton.1 hv]
  exact h

theorem alloca (ty : LoweredType) : Made own (alloca ty) own := emit nofun

/-- An instruction with one operand. -/
theorem emit_one {operation : Operation} {v : ValueId} (hop : operation.operands = [v]) (h : own v) :
    Made own (Lowering.emit operation) own := by
  refine emit fun w hw => ?_
  rw [hop] at hw
  rw [List.mem_singleton.1 hw]
  exact h

/-- An instruction with two operands. -/
theorem emit_two {operation : Operation} {v w : ValueId} (hop : operation.operands = [v, w]) (hv : own v)
    (hw : own w) : Made own (Lowering.emit operation) own := by
  refine emit fun x hx => ?_
  rw [hop] at hx
  rcases List.mem_cons.1 hx with rfl | hx
  · exact hv
  · rw [List.mem_singleton.1 hx]
    exact hw

theorem coerce {v : ValueId} (h : own v) (target : LoweredType) : Made own (coerce v target) own := by
  refine (typeOf v).bind fun ty _ => ?_
  split
  · exact pure h
  · refine get_bind fun s _ => ?_
    split
    · next hc => exact constant (Site.retypedConstant?_fits hc)
    · split
      · exact emit_one rfl h
      · exact fault _

theorem store {slot v : ValueId} (hs : own slot) (hv : own v) : Made own (store slot v) fun _ => True := by
  refine (typeOf slot).bind fun slotTy _ => (typeOf v).bind fun ty _ => ?_
  dsimp only
  split
  · exact (emit_one rfl hv).bind fun content hc => (emit_two rfl hs hc).bind fun _ _ => pure trivial
  · exact (coerce hv _).bind fun content hc => (emit_two rfl hs hc).bind fun _ _ => pure trivial

theorem load {slot : ValueId} (h : own slot) : Made own (load slot) own := by
  refine (typeOf slot).bind fun ty _ => ?_
  split
  · exact pure h
  · exact emit_one rfl h

/-! ## Construction and coverage -/

theorem memberIndex (index : Nat) : Made own (memberIndex index) fun _ => True := by
  unfold Lowering.memberIndex
  split
  · exact pure trivial
  · exact fault _

theorem enterMember {memory : ValueId} (h : own memory) (index : Nat) : Made own (enterMember memory index) own :=
  (constant (Site.fits_i64 _)).bind fun _ hd => (emit_two rfl h hd).bind fun _ _ =>
    (memberIndex index).bind fun _ _ => emit_one rfl h

theorem enterPath (path : List Nat) : ∀ {memory}, own memory → Made own (enterPath memory path) own := by
  induction path with
  | nil => exact fun h => pure h
  | cons index path ih => exact fun h => (enterMember h index).bind fun _ hp => ih hp

theorem prepare {memory : ValueId} (h : own memory) (plan : FillPlan) :
    Made own (prepare memory plan) fun site => own site.memory := by
  refine (enterPath plan.path h).bind fun payload hp => ?_
  cases plan.goal with
  | impossible f => exact fault f
  | whole | memberwise => exact pure hp

theorem storeArgument {site : FillSite} (hs : own site.memory) (index : Nat) {v : ValueId} (hv : own v) :
    Made own (storeArgument site index v) fun _ => True := by
  unfold Lowering.storeArgument
  split
  · exact (memberIndex index).bind fun _ _ => (emit_one rfl hs).bind fun _ hslot => store hslot hv
  · exact store hs hv

theorem caseTargets (indices : List (List Nat)) : Made own (caseTargets indices) fun _ => True := by
  induction indices with
  | nil => exact pure trivial
  | cons is rest ih => exact newBlock.bind fun _ _ => ih.bind fun _ _ => pure trivial

theorem testMember {discriminant : ValueId} (h : own discriminant) (index : Nat) :
    Made own (testMember discriminant index) own :=
  (constant (Site.fits_i64 _)).bind fun _ hp => emit_two rfl h hp

theorem dispatch {discriminant : ValueId} (h : own discriminant) (fatal : BlockId) (tests : List (Nat × BlockId)) :
    Made own (dispatch discriminant fatal tests) fun _ => True := by
  induction tests with
  | nil => exact branchTo fatal
  | cons p rest ih =>
    obtain ⟨index, block⟩ := p
    cases rest with
    | nil => exact (testMember h index).bind fun _ hc => branchOn hc _ _
    | cons q rest =>
      exact (testMember h index).bind fun _ hc => newBlock.bind fun next _ => (branchOn hc _ _).bind fun _ _ =>
        (startBlock next).bind fun _ _ => ih

theorem bindPayload {scrutinee : ValueId} (h : own scrutinee) (indices : List Nat) (name : String) (span : Span) :
    Made own (bindPayload scrutinee indices name span) fun _ => True := by
  unfold Lowering.bindPayload
  split
  · split
    · exact (emit_one rfl h).bind fun _ hp => define hp name
    · exact fault _
  · exact fail _

/-! ## Expressions -/

theorem lowerConstant (c : Constant) (ty : Ty) : Made own (lowerConstant c ty) own := by
  unfold Lowering.lowerConstant
  split
  · next typed e he =>
    obtain ⟨_, -, hretyped⟩ := Option.bind_eq_some_iff.1 he
    obtain ⟨_, hretyped, heq⟩ := Option.map_eq_some_iff.1 hretyped
    cases heq
    exact constant (Site.fits_of_retyped hretyped)
  · exact constant (Site.fits_defaultType c)

theorem lowerOperator {lhs rhs : ValueId} (hl : own lhs) (hr : own rhs) (op : BinaryOperator) (ty : Ty) :
    Made own (lowerOperator op ty lhs rhs) own := by
  unfold Lowering.lowerOperator
  cases op.class with
  | arith op =>
    exact (lowerType ty).bind fun _ _ => (coerce hl _).bind fun _ hl => (coerce hr _).bind fun _ hr =>
      emit_two rfl hl hr
  | cmp op =>
    exact (typeOf lhs).bind fun _ _ => (typeOf rhs).bind fun _ _ => get_bind fun _ _ =>
      (coerce hl _).bind fun _ hl => (coerce hr _).bind fun _ hr => emit_two rfl hl hr
  | logic op => exact (coerce hl _).bind fun _ hl => (coerce hr _).bind fun _ hr => emit_two rfl hl hr

theorem finishCall {args : List ValueId} (h : ∀ v ∈ args, own v) (name : String) :
    Made own (finishCall name args) own := by
  have hcall : Made own (Lowering.emit (.call name args)) own := emit h
  refine hcall.bind fun result hresult => ?_
  split
  · exact pure hresult
  · refine (typeOf result).bind fun ty _ => ?_
    split
    · exact (alloca ty).bind fun slot hs => (store hs hresult).bind fun _ _ => pure hs
    · exact pure hresult

theorem resultSlot (ty : Ty) : Made own (resultSlot ty) fun o => ∀ slot, o = some slot → own slot := by
  refine (lowerType ty).bind fun lowered _ => ?_
  split
  · exact pure nofun
  · refine (alloca lowered).bind fun slot hs => pure ?_
    rintro _ ⟨⟩
    exact hs

mutual

theorem lowerExpr : (e : Expr) → Made own (lowerExpr e) own
  | .constant c ty _ => by
    rw [Lowering.lowerExpr]
    exact lowerConstant c ty
  | .text content _ _ => by
    rw [Lowering.lowerExpr]
    exact lowerLiteral content
  | .ident name _ _ => by
    rw [Lowering.lowerExpr]
    exact (slotOf name).bind fun _ hs => load hs
  | .binary op left right ty _ => by
    rw [Lowering.lowerExpr]
    exact (lowerExpr left).bind fun _ hl => (lowerExpr right).bind fun _ hr => lowerOperator hl hr op ty
  | .call name [arg] callee true ty _ => by
    rw [Lowering.lowerExpr]
    exact (lowerType ty).bind fun _ _ => (lowerExpr arg).bind fun _ hv => coerce hv _
  | .call name [] callee true ty _ => by
    simp only [Lowering.lowerExpr]
    exact fault _
  | .call name (_ :: _ :: _) callee true ty _ => by
    simp only [Lowering.lowerExpr]
    exact fault _
  | .call name args callee false ty _ => by
    rw [Lowering.lowerExpr.eq_def]
    simp only [Bool.false_eq_true, if_false]
    split
    · exact (lowerType ty).bind fun _ _ => (alloca _).bind fun slot hs => (prepare hs _).bind fun site hsite =>
        (storeAll args hsite 0).bind fun _ _ => pure hs
    · exact (lowerArguments args name callee args.length 0).bind fun _ hvs => finishCall hvs name
  | .choice scrutinee cases ty _ => by
    rw [Lowering.lowerExpr]
    split
    · split
      · exact fail _
      · refine (lowerExpr scrutinee).bind fun subject hsub => (resultSlot ty).bind fun slot hslot => ?_
        refine (emit_one rfl hsub).bind fun discriminant hd => (caseTargets _).bind fun targets _ => ?_
        refine newBlock.bind fun fatal _ => newBlock.bind fun join _ => (dispatch hd fatal _).bind fun _ _ => ?_
        refine (lowerCases cases hsub hslot join targets).bind fun _ _ => (startBlock fatal).bind fun _ _ => ?_
        refine (leave nofun).bind fun _ _ => (startBlock join).bind fun _ _ => ?_
        cases slot with
        | some slot => exact load (hslot slot rfl)
        | none => exact absent
    · exact functionName.bind fun _ _ => fault _

theorem storeAll : (args : List Expr) → ∀ {site : FillSite}, own site.memory → ∀ index,
    Made own (storeAll site index args) fun _ => True
  | [], _, _, _ => by
    rw [Lowering.storeAll]
    exact pure trivial
  | arg :: args, _, hsite, index => by
    rw [Lowering.storeAll]
    exact (lowerExpr arg).bind fun _ hv => (storeArgument hsite index hv).bind fun _ _ => storeAll args hsite _

theorem lowerArguments : (args : List Expr) → ∀ name callee total position,
    Made own (lowerArguments name callee total position args) fun vs => ∀ v ∈ vs, own v
  | [], _, _, _, _ => by
    rw [Lowering.lowerArguments]
    exact pure nofun
  | arg :: args, name, callee, total, position => by
    rw [Lowering.lowerArguments]
    refine (need _ _).bind fun param _ => (lowerType param).bind fun lowered _ => ?_
    have rest : ∀ v, own v → Made own (do
        let vs ← Lowering.lowerArguments name callee total (position + 1) args
        return v :: vs) fun vs => ∀ v ∈ vs, own v := fun v hv =>
      (lowerArguments args name callee total _).bind fun _ hvs => pure (List.forall_mem_cons.2 ⟨hv, hvs⟩)
    dsimp only
    split
    · exact (alloca lowered).bind fun _ hs => (prepare hs _).bind fun _ hsite => (lowerExpr arg).bind fun _ hv =>
        (storeArgument hsite 0 hv).bind fun _ _ => (pure (P := own) hs).bind rest
    · exact (lowerExpr arg).bind fun _ hv => (coerce hv _).bind rest

theorem lowerCases : (cases : List MatchCase) → ∀ {subject : ValueId}, own subject →
    ∀ {slot : Option ValueId}, (∀ s, slot = some s → own s) → ∀ join targets,
    Made own (lowerCases subject slot join targets cases) fun _ => True
  | [], _, _, _, _, _, targets => by
    cases targets <;> exact pure trivial
  | ⟨_, binding, body, _, span⟩ :: cases, _, _, _, _, _, [] => by
    rw [Lowering.lowerCases]
    · exact pure trivial
    · nofun
  | ⟨_, binding, body, _, span⟩ :: cases, subject, hsub, slot, hslot, join, target :: targets => by
    rw [Lowering.lowerCases]
    have stored : ∀ v, own v → Made own (match slot with
        | some slot => Lowering.store slot v
        | none => Pure.pure ()) fun _ => True := by
      intro v hv
      cases slot with
      | none => exact pure trivial
      | some slot => exact store (hslot slot rfl) hv
    refine (startBlock _).bind fun _ _ => bind (P := fun _ => True) (inScope ?_) fun _ _ =>
      (branchTo join).bind fun _ _ => lowerCases cases hsub hslot join targets
    cases binding with
    | none => exact (lowerExpr body).bind stored
    | some name => exact (bindPayload hsub _ name span).bind fun _ _ => (lowerExpr body).bind stored

end

/-! ## Statements -/

theorem fillInitial {slot : ValueId} (hs : own slot) (ty : Ty) (e : Expr) :
    Made own (fillInitial slot ty e) fun _ => True := by
  unfold Lowering.fillInitial
  split
  · split
    · exact (prepare hs _).bind fun _ hsite => storeAll _ hsite 0
    · exact (lowerExpr _).bind fun _ hv => store hs hv
  · exact (lowerExpr _).bind fun _ hv => store hs hv

theorem lowerReturn (value : Option Expr) : Made own (lowerReturn value) fun _ => True := by
  refine get_bind fun s hslot => ?_
  split
  · next e slot he => exact (lowerExpr e).bind fun _ hv => (store (hslot slot he) hv).bind fun _ _ => branchTo _
  · exact (pure (P := fun _ => True) trivial).bind fun _ _ => branchTo _
  · exact (fault (P := fun _ => True) _).bind fun _ _ => branchTo _

mutual

theorem lowerStatement : (st : Statement) → Made own (lowerStatement st) fun _ => True
  | .declare name ty initial _ => by
    rw [Lowering.lowerStatement]
    refine (lowerType ty).bind fun lowered _ => (alloca lowered).bind fun slot hs => ?_
    cases initial with
    | none => exact define hs name
    | some e => exact (fillInitial hs ty e).bind fun _ _ => define hs name
  | .assign name value _ => by
    rw [Lowering.lowerStatement]
    exact (slotOf name).bind fun _ hs => (lowerExpr value).bind fun _ hv => store hs hv
  | .give value _ => by
    rw [Lowering.lowerStatement]
    exact lowerReturn value
  | .branch condition whenTrue (some whenFalse) _ => by
    rw [Lowering.lowerStatement]
    refine (lowerExpr condition).bind fun _ hv => (coerce hv _).bind fun c hc => ?_
    refine newBlock.bind fun _ _ => newBlock.bind fun _ _ => newBlock.bind fun _ _ => ?_
    refine (branchOn hc _ _).bind fun _ _ => (startBlock _).bind fun _ _ => ?_
    refine (lowerBody whenTrue).bind fun _ _ => (branchTo _).bind fun _ _ => ?_
    refine (startBlock _).bind fun _ _ => (lowerBody whenFalse).bind fun _ _ => ?_
    exact (branchTo _).bind fun _ _ => startBlock _
  | .branch condition whenTrue none _ => by
    rw [Lowering.lowerStatement]
    refine (lowerExpr condition).bind fun _ hv => (coerce hv _).bind fun c hc => ?_
    refine newBlock.bind fun _ _ => newBlock.bind fun _ _ => (branchOn hc _ _).bind fun _ _ => ?_
    refine (startBlock _).bind fun _ _ => (lowerBody whenTrue).bind fun _ _ => ?_
    exact (branchTo _).bind fun _ _ => startBlock _
  | .effect value => by
    rw [Lowering.lowerStatement]
    exact (lowerExpr value).bind fun _ _ => pure trivial

theorem lowerBody : (body : Body) → Made own (lowerBody body) fun _ => True
  | ⟨statements, _, _⟩ => by
    rw [Lowering.lowerBody]
    exact inScope (lowerStatements statements)

theorem lowerStatements : (statements : List Statement) → Made own (lowerStatements statements) fun _ => True
  | [] => by
    rw [Lowering.lowerStatements]
    exact pure trivial
  | st :: rest => by
    rw [Lowering.lowerStatements]
    refine (lowerStatement st).bind fun _ _ => isTerminated.bind fun _ _ => ?_
    split
    · split
      · exact pure trivial
      · exact functionName.bind fun _ _ => report _
    · exact lowerStatements rest

end

/-! ## Bodies -/

theorem prepareReturn : Made own prepareReturn fun _ => True := by
  refine get_bind fun s _ => ?_
  split
  · exact pure trivial
  · exact (alloca _).bind fun _ hs => setReturnSlot hs

theorem finishReturn : Made own finishReturn fun _ => True := by
  refine get_bind fun s hslot => ?_
  split
  · next slot he =>
    refine (emit_one rfl (hslot slot he)).bind fun v hv => ?_
    refine (pure (P := fun o => ∀ w, o = some w → own w) ?_).bind fun _ hvalue => setReturn _ _ hvalue
    rintro _ ⟨⟩
    exact hv
  · refine (pure (a := none) (P := fun o => ∀ w, o = some w → own w) ?_).bind fun _ hvalue => setReturn _ _ hvalue
    rintro _ ⟨⟩

/-! The arguments of a function are values that the steps above never give: only where every value will do, the copies
of the arguments are made so as well. -/

theorem spillArguments (h : ∀ v, own v) (function : String) (params : List Param) :
    ∀ position, Made own (spillArguments function position params) fun _ => True := by
  induction params with
  | nil => exact fun _ => pure trivial
  | cons param params ih =>
    intro position
    refine get_bind fun s _ => (need _ _).bind fun argument _ => (typeOf argument).bind fun ty _ => ?_
    exact (alloca _).bind fun slot hs => (store hs (h argument)).bind fun _ _ => (define hs param.name).bind fun _ _ =>
      ih _

theorem lowerFunctionBody (h : ∀ v, own v) (item : FunctionItem) : Made own (lowerFunctionBody item) fun _ => True :=
  prepareReturn.bind fun _ _ => (spillArguments h _ _ _).bind fun _ _ => (lowerBody item.body).bind fun _ _ =>
    get_bind fun _ _ => (branchTo _).bind fun _ _ => (startBlock _).bind fun _ _ => finishReturn

end Made

end Lowering

end BlockForm
