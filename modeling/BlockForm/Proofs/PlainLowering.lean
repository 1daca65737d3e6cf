import BlockForm.Proofs.Plain

/-!
# BlockForm.Proofs.PlainLowering — lowering does not look at the verify option

`BlockForm.Proofs.Plain` for the steps of lowering, by the recursion of the definitions, up to both passes over a
module.
-/

namespace BlockForm

open Action

/-- The state with the verify option of its unit set. -/
def LoweringState.withVerify (b : Bool) (s : LoweringState) : LoweringState := { s with unit := s.unit.withVerify b }

namespace Lowering

variable {b : Bool} {allowed : ErrorClass} {α : Type}

/-! ## Steps -/

theorem plain_inUnit {x : CompilationUnit.Interning α} (h : Plain (CompilationUnit.withVerify b) allowed x) :
    Plain (LoweringState.withVerify b) allowed (inUnit x) := by
  constructor
  · rintro ⟨u, f, current, endBlock, scopes⟩
    show inUnit x ⟨u.withVerify b, f, current, endBlock, scopes⟩ = _
    simp only [inUnit, h.blind u]
    rfl
  · rintro ⟨u, f, current, endBlock, scopes⟩ e he
    exact h.error (s := u) he

theorem plain_inFunction {x : Building α} (h : Plain id allowed x) :
    Plain (LoweringState.withVerify b) allowed (inFunction x) := by
  refine ⟨fun _ => rfl, ?_⟩
  rintro ⟨u, f, current, endBlock, scopes⟩ e he
  exact h.error (s := f) he

theorem plain_emit (op : Operation) : Plain (LoweringState.withVerify b) allowed (emit op) := by
  constructor
  · rintro ⟨u, f, current, endBlock, scopes⟩
    show emit op ⟨u.withVerify b, f, current, endBlock, scopes⟩ = _
    simp only [emit, Function.pushInstruction_withVerify]
    rfl
  · rintro ⟨u, f, current, endBlock, scopes⟩ e he
    exact (Function.plain_pushInstruction u current op).error (s := f) he

theorem plain_inScope {x : Lowering α} (h : Plain (LoweringState.withVerify b) allowed x) :
    Plain (LoweringState.withVerify b) allowed (inScope x) := by
  constructor
  · intro s
    have hb := h.blind { s with scopes := [] :: s.scopes }
    show inScope x (s.withVerify b) = _
    unfold inScope
    have hs : ({ s.withVerify b with scopes := [] :: (s.withVerify b).scopes } : LoweringState) =
        LoweringState.withVerify b { s with scopes := [] :: s.scopes } := rfl
    simp only [hs, hb]
    rfl
  · intro s e he
    exact h.error (s := { s with scopes := [] :: s.scopes }) he

theorem plain_define (name : String) (slot : ValueId) :
    Plain (LoweringState.withVerify b) allowed (define name slot) := by
  refine plain_modify fun s => ?_
  obtain ⟨u, f, current, endBlock, scopes⟩ := s
  cases scopes <;> rfl

theorem plain_functionName : Plain (LoweringState.withVerify b) allowed functionName :=
  plain_get_bind (fun _ => rfl) fun _ => plain_pure _

theorem plain_slotOf (name : String) : Plain (LoweringState.withVerify b) allowed (slotOf name) :=
  plain_get_bind (fun _ => rfl) fun _ => plain_need _ rfl

theorem plain_lowerType (ty : Ty) : Plain (LoweringState.withVerify b) allowed (lowerType ty) :=
  plain_inUnit (CompilationUnit.plain_lowerType ty)

theorem plain_typeOf (v : ValueId) : Plain (LoweringState.withVerify b) allowed (typeOf v) :=
  plain_get_bind (fun _ => rfl) fun _ => plain_check (Function.calm_operandType v)

theorem plain_constant (c : Constant) (e : Elementary) : Plain (LoweringState.withVerify b) allowed (constant c e) :=
  plain_inFunction (Function.plain_pushValue _)

theorem plain_newBlock : Plain (LoweringState.withVerify b) allowed newBlock := plain_inFunction Function.plain_newBlock

theorem plain_isTerminated : Plain (LoweringState.withVerify b) allowed isTerminated :=
  plain_get_bind (fun _ => rfl) fun _ => plain_pure _

theorem plain_leave (e : Exit) : Plain (LoweringState.withVerify b) allowed (leave e) :=
  plain_get_bind (fun _ => rfl) fun _ => plain_inFunction (Function.plain_setExit _ e)

theorem plain_startBlock (block : BlockId) : Plain (LoweringState.withVerify b) allowed (startBlock block) :=
  (plain_inFunction (Function.plain_appendBlock block)).bind fun _ => plain_modify fun _ => rfl

theorem plain_branchTo (block : BlockId) : Plain (LoweringState.withVerify b) allowed (branchTo block) := by
  refine plain_isTerminated.bind fun terminated => ?_
  split
  · exact plain_pure _
  · exact (plain_inFunction (Function.plain_labelOf block)).bind fun _ => plain_leave _

theorem plain_branchOn (condition : ValueId) (taken otherwise : BlockId) :
    Plain (LoweringState.withVerify b) allowed (branchOn condition taken otherwise) :=
  (plain_inFunction (Function.plain_labelOf taken)).bind fun _ =>
    (plain_inFunction (Function.plain_labelOf otherwise)).bind fun _ => plain_leave _

theorem plain_alloca (ty : LoweredType) : Plain (LoweringState.withVerify b) allowed (alloca ty) := plain_emit _

theorem plain_coerce (v : ValueId) (target : LoweredType) :
    Plain (LoweringState.withVerify b) allowed (coerce v target) := by
  refine (plain_typeOf v).bind fun ty => ?_
  split
  · exact plain_pure _
  · refine plain_get_bind (fun _ => rfl) fun s => ?_
    split
    · exact plain_constant _ _
    · split
      · exact plain_emit _
      · exact plain_fault rfl

theorem plain_store (slot v : ValueId) : Plain (LoweringState.withVerify b) allowed (store slot v) := by
  refine (plain_typeOf slot).bind fun slotTy => (plain_typeOf v).bind fun ty => ?_
  dsimp only
  split
  · exact (plain_emit _).bind fun _ => (plain_emit _).bind fun _ => plain_pure _
  · exact (plain_coerce v _).bind fun _ => (plain_emit _).bind fun _ => plain_pure _

theorem plain_load (slot : ValueId) : Plain (LoweringState.withVerify b) allowed (load slot) := by
  refine (plain_typeOf slot).bind fun ty => ?_
  split
  · exact plain_pure _
  · exact plain_emit _

/-! ## Construction and coverage -/

theorem plain_memberIndex (index : Nat) : Plain (LoweringState.withVerify b) allowed (memberIndex index) := by
  unfold memberIndex
  split
  · exact plain_pure _
  · exact plain_fault rfl

theorem plain_enterPath (path : List Nat) :
    ∀ memory, Plain (LoweringState.withVerify b) allowed (enterPath memory path) := by
  induction path with
  | nil => exact fun _ => plain_pure _
  | cons index path ih =>
    intro memory
    have enter : Plain (LoweringState.withVerify b) allowed (enterMember memory index) :=
      (plain_constant _ _).bind fun _ => (plain_emit _).bind fun _ => (plain_memberIndex _).bind fun _ => plain_emit _
    exact enter.bind fun payload => ih payload

/-- A plan that cannot be followed says so with a fault of its own. -/
theorem isOfStep_of_plan {args : List Ty} {ty : Ty} {flt : Fault}
    (h : (FillPlan.of args ty).goal = .impossible flt) : flt.isOfStep = true := by
  fun_induction FillPlan.of args ty with
  | case2 ty hc hs i hi ih => exact ih h
  | case1 | case4 | case6 => cases h
  | case3 | case5 | case7 =>
    cases h
    rfl

theorem plain_prepare (memory : ValueId) (args : List Ty) (ty : Ty) :
    Plain (LoweringState.withVerify b) allowed (prepare memory (.of args ty)) := by
  refine (plain_enterPath _ memory).bind fun payload => ?_
  cases hg : (FillPlan.of args ty).goal with
  | impossible flt => exact plain_fault (Error.isOrdinary_internal (isOfStep_of_plan hg))
  | whole | memberwise => exact plain_pure _

theorem plain_storeArgument (site : FillSite) (index : Nat) (v : ValueId) :
    Plain (LoweringState.withVerify b) allowed (storeArgument site index v) := by
  unfold storeArgument
  split
  · exact (plain_memberIndex _).bind fun _ => (plain_emit _).bind fun _ => plain_store _ _
  · exact plain_store _ _

theorem plain_caseTargets (indices : List (List Nat)) :
    Plain (LoweringState.withVerify b) allowed (caseTargets indices) := by
  induction indices with
  | nil => exact plain_pure _
  | cons is rest ih => exact plain_newBlock.bind fun _ => ih.bind fun _ => plain_pure _

theorem plain_testMember (discriminant : ValueId) (index : Nat) :
    Plain (LoweringState.withVerify b) allowed (testMember discriminant index) :=
  (plain_constant _ _).bind fun _ => plain_emit _

theorem plain_dispatch (discriminant : ValueId) (fatal : BlockId) (tests : List (Nat × BlockId)) :
    Plain (LoweringState.withVerify b) allowed (dispatch discriminant fatal tests) := by
  induction tests with
  | nil => exact plain_branchTo fatal
  | cons p rest ih =>
    obtain ⟨index, block⟩ := p
    cases rest with
    | nil => exact (plain_testMember _ _).bind fun _ => plain_branchOn _ _ _
    | cons q rest =>
      exact (plain_testMember _ _).bind fun _ => plain_newBlock.bind fun next => (plain_branchOn _ _ _).bind fun _ =>
        (plain_startBlock next).bind fun _ => ih

theorem plain_bindPayload (scrutinee : ValueId) (indices : List Nat) (name : String) (span : Span) :
    Plain (LoweringState.withVerify b) .mistake (bindPayload scrutinee indices name span) := by
  unfold bindPayload
  split
  · split
    · exact (plain_emit _).bind fun _ => plain_define _ _
    · exact plain_fault rfl
  · exact plain_fail rfl

theorem isOrdinary_of_coverage {sum : Ty} {cases : List MatchCase} : ∀ {covered : List Nat} {e : Error},
    coverage sum covered cases = .error e → e.isOrdinary .mistake = true := by
  induction cases with
  | nil =>
    intro covered e h
    cases h
  | cons c cs ih =>
    intro covered e h
    have hcov : ∀ {e}, c.covers sum covered = .error e → e.isOrdinary .mistake = true := by
      intro e he
      unfold MatchCase.covers at he
      split at he
      · cases he
      · dsimp only at he
        split at he
        · cases he
          rfl
        · cases he
    rw [coverage] at h
    cases hc : c.covers sum covered with
    | error e' =>
      rw [hc] at h
      cases h
      exact hcov hc
    | ok is =>
      rw [hc] at h
      cases hr : coverage sum (covered ++ is) cs with
      | error e' =>
        simp only [hr, bind, Except.bind] at h
        cases h
        exact ih hr
      | ok rest =>
        simp only [hr, bind, Except.bind] at h
        cases h

/-! ## Expressions -/

theorem plain_lowerConstant (c : Constant) (ty : Ty) :
    Plain (LoweringState.withVerify b) allowed (lowerConstant c ty) := by
  unfold lowerConstant
  split <;> exact plain_constant _ _

theorem plain_lowerLiteral (content : String) : Plain (LoweringState.withVerify b) allowed (lowerLiteral content) :=
  (plain_inUnit (CompilationUnit.plain_internLiteral content)).bind fun _ =>
    plain_get_bind (fun _ => rfl) fun _ =>
      (plain_need _ rfl).bind fun _ => plain_inFunction (Function.plain_literal _ _)

theorem plain_lowerOperator (op : BinaryOperator) (ty : Ty) (lhs rhs : ValueId) :
    Plain (LoweringState.withVerify b) allowed (lowerOperator op ty lhs rhs) := by
  unfold lowerOperator
  cases op.class with
  | arith op =>
    exact (plain_lowerType ty).bind fun _ =>
      (plain_coerce _ _).bind fun _ => (plain_coerce _ _).bind fun _ => plain_emit _
  | cmp op =>
    exact (plain_typeOf _).bind fun _ => (plain_typeOf _).bind fun _ => plain_get_bind (fun _ => rfl) fun _ =>
      (plain_coerce _ _).bind fun _ => (plain_coerce _ _).bind fun _ => plain_emit _
  | logic op => exact (plain_coerce _ _).bind fun _ => (plain_coerce _ _).bind fun _ => plain_emit _

theorem plain_finishCall (name : String) (args : List ValueId) :
    Plain (LoweringState.withVerify b) allowed (finishCall name args) := by
  refine (plain_emit _).bind fun result => ?_
  split
  · exact plain_pure _
  · refine (plain_typeOf _).bind fun ty => ?_
    split
    · exact (plain_alloca ty).bind fun _ => (plain_store _ _).bind fun _ => plain_pure _
    · exact plain_pure _

theorem plain_resultSlot (ty : Ty) : Plain (LoweringState.withVerify b) allowed (resultSlot ty) := by
  refine (plain_lowerType ty).bind fun lowered => ?_
  split
  · exact plain_pure _
  · exact (plain_alloca _).bind fun _ => plain_pure _

mutual

theorem plain_lowerExpr : (e : Expr) → Plain (LoweringState.withVerify b) .mistake (lowerExpr e)
  | .constant c ty _ => by
    rw [lowerExpr]
    exact plain_lowerConstant c ty
  | .text content _ _ => by
    rw [lowerExpr]
    exact plain_lowerLiteral content
  | .ident name _ _ => by
    rw [lowerExpr]
    exact (plain_slotOf name).bind fun slot => plain_load slot
  | .binary op left right ty _ => by
    rw [lowerExpr]
    exact (plain_lowerExpr left).bind fun _ => (plain_lowerExpr right).bind fun _ => plain_lowerOperator op ty _ _
  | .call name [arg] callee true ty _ => by
    rw [lowerExpr]
    exact (plain_lowerType ty).bind fun _ => (plain_lowerExpr arg).bind fun _ => plain_coerce _ _
  | .call name [] callee true ty _ => by
    simp only [lowerExpr]
    exact plain_fault rfl
  | .call name (_ :: _ :: _) callee true ty _ => by
    simp only [lowerExpr]
    exact plain_fault rfl
  | .call name args callee false ty _ => by
    rw [lowerExpr.eq_def]
    simp only [Bool.false_eq_true, if_false]
    split
    · exact (plain_lowerType ty).bind fun _ => (plain_alloca _).bind fun _ => (plain_prepare _ _ _).bind fun site =>
        (plain_storeAll args site 0).bind fun _ => plain_pure _
    · exact (plain_lowerArguments args name callee args.length 0).bind fun _ => plain_finishCall _ _
  | .choice scrutinee cases ty _ => by
    rw [lowerExpr]
    split
    · split
      · next e he => exact plain_fail (isOrdinary_of_coverage he)
      · refine (plain_lowerExpr scrutinee).bind fun subject => (plain_resultSlot ty).bind fun slot => ?_
        refine (plain_emit _).bind fun _ => (plain_caseTargets _).bind fun targets => ?_
        refine plain_newBlock.bind fun fatal => plain_newBlock.bind fun join => (plain_dispatch _ _ _).bind fun _ => ?_
        refine (plain_lowerCases cases subject slot join targets).bind fun _ => (plain_startBlock _).bind fun _ => ?_
        refine (plain_leave _).bind fun _ => (plain_startBlock _).bind fun _ => ?_
        split
        · exact plain_load _
        · exact plain_pure _
    · exact plain_functionName.bind fun _ => plain_fault rfl

theorem plain_storeAll : (args : List Expr) → ∀ site index,
    Plain (LoweringState.withVerify b) .mistake (storeAll site index args)
  | [], _, _ => by
    rw [storeAll]
    exact plain_pure _
  | arg :: args, site, index => by
    rw [storeAll]
    exact (plain_lowerExpr arg).bind fun _ => (plain_storeArgument _ _ _).bind fun _ => plain_storeAll args site _

theorem plain_lowerArguments : (args : List Expr) → ∀ name callee total position,
    Plain (LoweringState.withVerify b) .mistake (lowerArguments name callee total position args)
  | [], _, _, _, _ => by
    rw [lowerArguments]
    exact plain_pure _
  | arg :: args, name, callee, total, position => by
    rw [lowerArguments]
    refine (plain_need _ rfl).bind fun param => (plain_lowerType param).bind fun lowered => ?_
    dsimp only
    split
    · exact (plain_alloca _).bind fun _ => (plain_prepare _ _ _).bind fun _ => (plain_lowerExpr arg).bind fun _ =>
        (plain_storeArgument _ _ _).bind fun _ => (plain_pure _).bind fun _ =>
          (plain_lowerArguments args name callee total _).bind fun _ => plain_pure _
    · exact (plain_lowerExpr arg).bind fun _ => (plain_coerce _ _).bind fun _ =>
        (plain_lowerArguments args name callee total _).bind fun _ => plain_pure _

theorem plain_lowerCases : (cases : List MatchCase) → ∀ subject slot join targets,
    Plain (LoweringState.withVerify b) .mistake (lowerCases subject slot join targets cases)
  | [], _, _, _, targets => by
    cases targets <;> exact plain_pure _
  | ⟨_, binding, body, _, span⟩ :: cases, subject, slot, join, [] => by
    rw [lowerCases]
    · exact plain_pure _
    · nofun
  | ⟨_, binding, body, _, span⟩ :: cases, subject, slot, join, target :: targets => by
    rw [lowerCases]
    refine (plain_startBlock _).bind fun _ => Plain.bind (plain_inScope ?_) fun _ => (plain_branchTo join).bind fun _ =>
      plain_lowerCases cases subject slot join targets
    have stored : ∀ v, Plain (LoweringState.withVerify b) .mistake (slot.elim (pure ()) fun slot => store slot v) := by
      intro v
      cases slot with
      | none => exact plain_pure _
      | some slot => exact plain_store slot v
    cases binding with
    | none =>
      refine (plain_lowerExpr body).bind fun v => ?_
      cases slot <;> exact stored v
    | some name =>
      refine (plain_bindPayload _ _ _ _).bind fun _ => (plain_lowerExpr body).bind fun v => ?_
      cases slot <;> exact stored v

end

/-! ## Statements -/

theorem plain_fillInitial (slot : ValueId) (ty : Ty) (e : Expr) :
    Plain (LoweringState.withVerify b) .mistake (fillInitial slot ty e) := by
  unfold fillInitial
  split
  · split
    · exact (plain_prepare _ _ _).bind fun _ => plain_storeAll _ _ _
    · exact (plain_lowerExpr _).bind fun _ => plain_store _ _
  · exact (plain_lowerExpr _).bind fun _ => plain_store _ _

theorem plain_lowerReturn (value : Option Expr) : Plain (LoweringState.withVerify b) .mistake (lowerReturn value) := by
  refine plain_get_bind (fun _ => rfl) fun s => ?_
  split
  · exact (plain_lowerExpr _).bind fun _ => (plain_store _ _).bind fun _ => plain_branchTo _
  · exact (plain_pure _).bind fun _ => plain_branchTo _
  · exact (plain_fault rfl).bind fun _ => plain_branchTo _

mutual

theorem plain_lowerStatement : (st : Statement) → Plain (LoweringState.withVerify b) .mistake (lowerStatement st)
  | .declare name ty initial _ => by
    rw [lowerStatement]
    refine (plain_lowerType ty).bind fun _ => (plain_alloca _).bind fun slot => ?_
    cases initial with
    | none => exact plain_define _ _
    | some e => exact (plain_fillInitial _ _ _).bind fun _ => plain_define _ _
  | .assign name value _ => by
    rw [lowerStatement]
    exact (plain_slotOf name).bind fun _ => (plain_lowerExpr value).bind fun _ => plain_store _ _
  | .give value _ => by
    rw [lowerStatement]
    exact plain_lowerReturn value
  | .branch condition whenTrue (some whenFalse) _ => by
    rw [lowerStatement]
    refine (plain_lowerExpr condition).bind fun _ => (plain_coerce _ _).bind fun _ => ?_
    refine plain_newBlock.bind fun _ => plain_newBlock.bind fun _ => plain_newBlock.bind fun _ => ?_
    refine (plain_branchOn _ _ _).bind fun _ => (plain_startBlock _).bind fun _ => ?_
    refine (plain_lowerBody whenTrue).bind fun _ => (plain_branchTo _).bind fun _ => ?_
    refine (plain_startBlock _).bind fun _ => (plain_lowerBody whenFalse).bind fun _ => ?_
    exact (plain_branchTo _).bind fun _ => plain_startBlock _
  | .branch condition whenTrue none _ => by
    rw [lowerStatement]
    refine (plain_lowerExpr condition).bind fun _ => (plain_coerce _ _).bind fun _ => ?_
    refine plain_newBlock.bind fun _ => plain_newBlock.bind fun _ => (plain_branchOn _ _ _).bind fun _ => ?_
    refine (plain_startBlock _).bind fun _ => (plain_lowerBody whenTrue).bind fun _ => ?_
    exact (plain_branchTo _).bind fun _ => plain_startBlock _
  | .effect value => by
    rw [lowerStatement]
    exact (plain_lowerExpr value).bind fun _ => plain_pure _

theorem plain_lowerBody : (body : Body) → Plain (LoweringState.withVerify b) .mistake (lowerBody body)
  | ⟨statements, _, _⟩ => by
    rw [lowerBody]
    exact plain_inScope (plain_lowerStatements statements)

theorem plain_lowerStatements : (statements : List Statement) →
    Plain (LoweringState.withVerify b) .mistake (lowerStatements statements)
  | [] => by
    rw [lowerStatements]
    exact plain_pure _
  | st :: rest => by
    rw [lowerStatements]
    refine (plain_lowerStatement st).bind fun _ => plain_isTerminated.bind fun _ => ?_
    split
    · split
      · exact plain_pure _
      · exact plain_functionName.bind fun _ => plain_report _
    · exact plain_lowerStatements rest

end

/-! ## Bodies -/

theorem plain_spillArguments (function : String) (params : List Param) :
    ∀ position, Plain (LoweringState.withVerify b) allowed (spillArguments function position params) := by
  induction params with
  | nil => exact fun _ => plain_pure _
  | cons param params ih =>
    intro position
    refine plain_get_bind (fun _ => rfl) fun _ => (plain_need _ rfl).bind fun _ => (plain_typeOf _).bind fun _ => ?_
    exact (plain_alloca _).bind fun _ => (plain_store _ _).bind fun _ => (plain_define _ _).bind fun _ => ih _

theorem plain_prepareReturn : Plain (LoweringState.withVerify b) allowed prepareReturn := by
  refine plain_get_bind (fun _ => rfl) fun s => ?_
  split
  · exact plain_pure _
  · exact (plain_alloca _).bind fun _ => plain_inFunction (plain_modify fun _ => rfl)

theorem plain_finishReturn : Plain (LoweringState.withVerify b) allowed finishReturn := by
  refine plain_get_bind (fun s => ?_) fun s => ?_
  · simp only [LoweringState.withVerify, Function.setReturn_withVerify]
  · split
    · exact (plain_emit _).bind fun _ => (plain_pure _).bind fun _ => plain_inFunction (Function.plain_setReturn _ _ _)
    · exact (plain_pure _).bind fun _ => plain_inFunction (Function.plain_setReturn _ _ _)

theorem plain_lowerFunctionBody (item : FunctionItem) :
    Plain (LoweringState.withVerify b) .mistake (lowerFunctionBody item) :=
  plain_prepareReturn.bind fun _ => (plain_spillArguments _ _ _).bind fun _ => (plain_lowerBody item.body).bind fun _ =>
    plain_get_bind (fun _ => rfl) fun _ => (plain_branchTo _).bind fun _ => (plain_startBlock _).bind fun _ =>
      plain_finishReturn

end Lowering

/-! ## Passes -/

theorem except_map_eq_error {ε α β : Type} {x : Except ε α} {f : α → β} {e : ε} :
    x.map f = .error e ↔ x = .error e := by
  cases x <;> simp [Except.map]

namespace CompilationUnit

variable {b : Bool} {allowed : ErrorClass}

theorem plain_lowerParams (params : List Param) : Plain (withVerify b) allowed (lowerParams params) := by
  induction params with
  | nil => exact plain_pure _
  | cons param params ih => exact (plain_lowerType _).bind fun _ => ih.bind fun _ => plain_pure _

theorem plain_lowerSignature (s : Signature) : Plain (withVerify b) allowed (lowerSignature s) :=
  (plain_lowerParams _).bind fun _ => (plain_lowerType _).bind fun _ => plain_pure _

theorem plain_declareFunction (s : Signature) : Plain (withVerify b) allowed (declareFunction s) :=
  (plain_lowerSignature s).bind fun _ => (plain_addFunction _).bind fun _ => plain_pure _

theorem plain_defineFunction (item : FunctionItem) (arguments : List LoweredType) (result : LoweredType) :
    Plain (withVerify b) .mistake (defineFunction item arguments result) := by
  have hbody := Lowering.plain_lowerFunctionBody (b := b) item
  constructor
  · intro u
    unfold defineFunction
    dsimp only
    cases (Function.definition item.signature.name arguments result).result with
    | error e => rfl
    | ok a =>
      dsimp only
      cases (Function.openBody (Function.definition item.signature.name arguments result).state).result with
      | error e => rfl
      | ok p =>
        have := hbody.blind
          ⟨u, (Function.openBody (Function.definition item.signature.name arguments result).state).state,
            p.1, p.2, [[]]⟩
        simp only [LoweringState.withVerify] at this
        simp only [this]
  · intro u e h
    unfold defineFunction at h
    dsimp only at h
    cases hd : (Function.definition item.signature.name arguments result).result with
    | error e' =>
      simp only [hd, Except.error.injEq] at h
      subst h
      exact (Function.plain_pushArguments arguments 0).error hd
    | ok a =>
      simp only [hd] at h
      cases ho : (Function.openBody (Function.definition item.signature.name arguments result).state).result with
      | error e' =>
        simp only [ho, Except.error.injEq] at h
        subst h
        exact Function.plain_openBody.error ho
      | ok p =>
        simp only [ho] at h
        exact hbody.error (except_map_eq_error.1 h)

theorem plain_lowerFunction (item : FunctionItem) : Plain (withVerify b) .mistake (lowerFunction item) :=
  (plain_report _).bind fun _ => (plain_lowerSignature _).bind fun _ => (plain_defineFunction _ _ _).bind fun _ =>
    (plain_report _).bind fun _ => (plain_addFunction _).bind fun _ => plain_pure _

theorem plain_declareItem (item : Item) : Plain (withVerify b) allowed (declareItem item) := by
  cases item with
  | type t => exact (plain_lowerType _).bind fun _ => plain_pure _
  | function f => exact plain_declareFunction _
  | foreign s => exact plain_declareFunction _

theorem plain_lowerItem (item : Item) : Plain (withVerify b) .mistake (lowerItem item) := by
  cases item with
  | function f => exact plain_lowerFunction f
  | type t | foreign s => exact plain_pure _

/-- What is collected is no longer an error of the step: a fault is all that stops it. -/
theorem plain_collecting {x : Interning Unit} (h : Plain (withVerify b) .mistake x) :
    Plain (withVerify b) .fault (collecting x) := by
  constructor
  · intro u
    unfold collecting
    rw [h.blind u]
    rcases x u with ⟨e | a, v, log⟩
    · dsimp only
      split <;> rfl
    · rfl
  · intro u e he
    unfold collecting at he
    rcases hx : x u with ⟨e' | a, v, log⟩
    · rw [hx] at he
      dsimp only at he
      split at he
      · next hint =>
        cases he
        exact Error.isOrdinary_of_isInternal hint (h.error (s := u) (by rw [hx]))
      · cases he
    · rw [hx] at he
      cases he

theorem plain_collectingAll {step : Item → Interning Unit} (h : ∀ item, Plain (withVerify b) .mistake (step item))
    (items : List Item) : Plain (withVerify b) .fault (collectingAll step items) := by
  induction items with
  | nil => exact plain_pure _
  | cons item items ih => exact (plain_collecting (h item)).bind fun _ => ih.bind fun _ => plain_pure _

end CompilationUnit

end BlockForm
