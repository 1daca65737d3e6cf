import Mathlib.Logic.Equiv.Basic
import BlockForm.Proofs.ConstantTypes
import BlockForm.Proofs.ItemOrder
import BlockForm.Proofs.Renaming

/-!
# BlockForm.Proofs.LocalNames — local names and positions leave no trace

The steps of lowering agree on programs with other local names, places and scopes: one lemma for each, along the two
programs at once.  A name comes into scope under its counterpart, and is found where its counterpart is; places and
recorded scopes get into errors at most.  So two such modules are both rejected, or lower to the same unit
(`Module.lower_renamed`).
-/

namespace BlockForm

open Action

variable {R : String → String → Prop}

namespace Lowering

/-! ## Construction -/

theorem agree_memberIndex (index : Nat) : Agree R (memberIndex index) (memberIndex index) := by
  unfold memberIndex
  split
  · exact agree_pure index
  · exact agree_fault _ _

theorem agree_enterMember (memory : ValueId) (index : Nat) :
    Agree R (enterMember memory index) (enterMember memory index) :=
  (agree_constant _ _).bind fun _ => (agree_emit _).bind fun _ => (agree_memberIndex index).bind fun _ => agree_emit _

theorem agree_enterPath (path : List Nat) : ∀ memory, Agree R (enterPath memory path) (enterPath memory path) := by
  induction path with
  | nil => exact fun memory => agree_pure memory
  | cons index path ih => exact fun memory => (agree_enterMember memory index).bind fun payload => ih payload

theorem agree_prepare (memory : ValueId) (plan : FillPlan) : Agree R (prepare memory plan) (prepare memory plan) := by
  refine (agree_enterPath plan.path memory).bind fun memory => ?_
  cases plan.goal with
  | impossible fault => exact agree_fault _ _
  | whole => exact agree_pure _
  | memberwise => exact agree_pure _

/-- The names around a type do not change how a value of it is built. -/
theorem agree_prepare_of (memory : ValueId) (args : List Ty) {a b : Ty} (h : a.stripLeaf = b.stripLeaf) :
    Agree R (prepare memory (.of args a)) (prepare memory (.of args b)) := by
  rcases FillPlan.of_congr args h with heq | ⟨f, g, hf, hg⟩
  · rw [heq]
    exact agree_prepare memory _
  · rw [hf, hg]
    exact (agree_pure memory).bind fun _ => agree_fault f g

theorem agree_storeArgument (site : FillSite) (index : Nat) (v : ValueId) :
    Agree R (storeArgument site index v) (storeArgument site index v) := by
  unfold storeArgument
  split
  · exact (agree_memberIndex index).bind fun _ => (agree_emit _).bind fun slot => agree_store slot v
  · exact agree_store _ v

/-! ## Cases -/

/-- Which members a case covers is a matter of its pattern. -/
theorem covers_renamed (sum : Ty) (covered : List Nat) {c c' : MatchCase} (h : c.Renamed R c') :
    (∃ indices, c.covers sum covered = .ok indices ∧ c'.covers sum covered = .ok indices) ∨
      ∃ e e', c.covers sum covered = .error e ∧ c'.covers sum covered = .error e' := by
  obtain ⟨pattern⟩ := h
  cases pattern with
  | none => exact Or.inl ⟨_, rfl, rfl⟩
  | some pattern =>
    simp only [MatchCase.covers, MatchCase.pattern]
    split
    · exact Or.inr ⟨_, _, rfl, rfl⟩
    · exact Or.inl ⟨_, rfl, rfl⟩

theorem coverage_renamed (sum : Ty) {cases cases' : List MatchCase}
    (h : List.Forall₂ (MatchCase.Renamed R) cases cases') :
    ∀ covered, (∃ indices, coverage sum covered cases = .ok indices ∧ coverage sum covered cases' = .ok indices) ∨
      ∃ e e', coverage sum covered cases = .error e ∧ coverage sum covered cases' = .error e' := by
  induction h with
  | nil => exact fun covered => Or.inl ⟨[], rfl, rfl⟩
  | cons hc _ ih =>
    intro covered
    rcases covers_renamed sum covered hc with ⟨indices, hi, hi'⟩ | ⟨e, e', he, he'⟩
    · rcases ih (covered ++ indices) with ⟨rest, hr, hr'⟩ | ⟨e, e', he, he'⟩
      · exact Or.inl ⟨indices :: rest, by simp [coverage, hi, hr, bind, Except.bind, pure, Except.pure],
          by simp [coverage, hi', hr', bind, Except.bind, pure, Except.pure]⟩
      · exact Or.inr ⟨e, e', by simp [coverage, hi, he, bind, Except.bind],
          by simp [coverage, hi', he', bind, Except.bind]⟩
    · exact Or.inr ⟨e, e', by simp [coverage, he, bind, Except.bind], by simp [coverage, he', bind, Except.bind]⟩

theorem agree_caseTargets (indices : List (List Nat)) : Agree R (caseTargets indices) (caseTargets indices) := by
  induction indices with
  | nil => exact agree_pure _
  | cons is rest ih => exact agree_newBlock.bind fun block => ih.bind fun targets => agree_pure _

theorem agree_testMember (discriminant : ValueId) (index : Nat) :
    Agree R (testMember discriminant index) (testMember discriminant index) :=
  (agree_constant _ _).bind fun _ => agree_emit _

theorem agree_dispatch (discriminant : ValueId) (fatal : BlockId) (tests : List (Nat × BlockId)) :
    Agree R (dispatch discriminant fatal tests) (dispatch discriminant fatal tests) := by
  induction tests with
  | nil => exact agree_branchTo fatal
  | cons p rest ih =>
    obtain ⟨index, block⟩ := p
    cases rest with
    | nil => exact (agree_testMember _ _).bind fun _ => agree_branchOn _ _ _
    | cons q rest =>
      exact (agree_testMember _ _).bind fun _ => agree_newBlock.bind fun next =>
        (agree_branchOn _ _ _).bind fun _ => (agree_startBlock next).bind fun _ => ih

theorem agree_bindPayload (scrutinee : ValueId) (indices : List Nat) {name name' : String} (hn : R name name')
    (span span' : Span) :
    Agree R (bindPayload scrutinee indices name span) (bindPayload scrutinee indices name' span') := by
  unfold bindPayload
  split
  · split
    · exact (agree_emit _).bind fun payload => agree_define hn payload
    · exact agree_fault _ _
  · exact agree_fail _ _

/-! ## Expressions -/

theorem agree_lowerConstant (c : Constant) (ty : Ty) : Agree R (lowerConstant c ty) (lowerConstant c ty) := by
  unfold lowerConstant
  split
  · exact agree_constant _ _
  · exact agree_constant _ _

theorem agree_lowerLiteral (content : String) : Agree R (lowerLiteral content) (lowerLiteral content) :=
  (agree_inUnit _).bind fun _ => agree_look_bind (fun _ _ => rfl) fun _ => (agree_need _ _ _).bind fun _ =>
    agree_inFunction _

theorem agree_lowerOperator (op : BinaryOperator) (ty : Ty) (lhs rhs : ValueId) :
    Agree R (lowerOperator op ty lhs rhs) (lowerOperator op ty lhs rhs) := by
  unfold lowerOperator
  split
  · exact (agree_lowerType ty).bind fun target => (agree_coerce lhs target).bind fun _ =>
      (agree_coerce rhs target).bind fun _ => agree_emit _
  · refine (agree_typeOf lhs).bind fun _ => (agree_typeOf rhs).bind fun _ => ?_
    exact agree_look_bind (fun _ _ => rfl) fun _ => (agree_coerce lhs _).bind fun _ =>
      (agree_coerce rhs _).bind fun _ => agree_emit _
  · exact (agree_coerce lhs _).bind fun _ => (agree_coerce rhs _).bind fun _ => agree_emit _

theorem agree_finishCall (name : String) (args : List ValueId) :
    Agree R (finishCall name args) (finishCall name args) := by
  refine (agree_emit _).bind fun result => ?_
  split
  · exact agree_pure result
  · refine (agree_typeOf result).bind fun ty => ?_
    split
    · exact (agree_alloca ty).bind fun slot => (agree_store slot result).bind fun _ => agree_pure slot
    · exact agree_pure result

theorem agree_resultSlot (ty : Ty) : Agree R (resultSlot ty) (resultSlot ty) := by
  refine (agree_lowerType ty).bind fun lowered => ?_
  split
  · exact agree_pure none
  · exact (agree_alloca lowered).bind fun slot => agree_pure (some slot)

theorem agree_lowerArgument {arg arg' : Expr} (harg : Agree R (lowerExpr arg) (lowerExpr arg')) (hty : arg.ty = arg'.ty)
    {param param' : Ty} (h : param.stripLeaf = param'.stripLeaf) (lowered : LoweredType) :
    Agree R (lowerArgument param lowered arg) (lowerArgument param' lowered arg') := by
  have hsum : param.isSum = param'.isSum := by rw [← Ty.isSum_stripLeaf, h, Ty.isSum_stripLeaf]
  unfold lowerArgument
  rw [hsum, hty, Ty.sameShape_congr arg'.ty h]
  split
  · exact (agree_alloca lowered).bind fun slot => (agree_prepare_of slot _ h).bind fun site => harg.bind fun v =>
      (agree_storeArgument site 0 v).bind fun _ => agree_pure slot
  · exact harg.bind fun v => agree_coerce v _

theorem agree_bindCase (subject : ValueId) (indices : List Nat) {binding binding' : Option String}
    (h : Option.Rel R binding binding') (span span' : Span) :
    Agree R (Site.bindCase subject indices binding span) (Site.bindCase subject indices binding' span') := by
  cases h with
  | some hn => exact agree_bindPayload subject indices hn span span'
  | none => exact agree_pure ()

theorem agree_storeCase (slot : Option ValueId) (v : ValueId) :
    Agree R (Site.storeCase slot v) (Site.storeCase slot v) := by
  cases slot with
  | some slot => exact agree_store slot v
  | none => exact agree_pure ()

mutual

theorem agree_lowerExpr (hR : Relator.BiUnique R) : (e : Expr) → ∀ {e' : Expr}, e.Renamed R e' →
    Agree R (lowerExpr e) (lowerExpr e')
  | .constant c ty _, _, .constant _ _ _ _ => by
    rw [lowerExpr, lowerExpr]
    exact agree_lowerConstant c ty
  | .text content _ _, _, .text _ _ _ _ => by
    rw [lowerExpr, lowerExpr]
    exact agree_lowerLiteral content
  | .ident name _ _, _, .ident hn _ _ _ => by
    rw [lowerExpr, lowerExpr]
    exact (agree_slotOf hR hn).bind fun slot => agree_load slot
  | .binary op left right ty _, _, .binary _ hl hr _ _ _ => by
    rw [lowerExpr, lowerExpr]
    exact (agree_lowerExpr hR left hl).bind fun lhs => (agree_lowerExpr hR right hr).bind fun rhs =>
      agree_lowerOperator op ty lhs rhs
  | .call name [] callee true ty _, _, .call _ .nil _ _ _ _ _ => by
    simp only [lowerExpr]
    exact agree_fault _ _
  | .call name [arg] callee true ty _, _, .call _ (.cons ha .nil) _ _ _ _ _ => by
    simp only [lowerExpr]
    exact (agree_lowerType ty).bind fun target => (agree_lowerExpr hR arg ha).bind fun v => agree_coerce v target
  | .call name (_ :: _ :: _) callee true ty _, _, .call _ (.cons _ (.cons _ _)) _ _ _ _ _ => by
    simp only [lowerExpr]
    exact agree_fault _ _
  | .call name args callee false ty _, _, .call _ hargs hcallee _ _ _ _ => by
    rw [lowerExpr.eq_def, lowerExpr.eq_def]
    simp only [Bool.false_eq_true, if_false, ← hcallee.isDefined, ← Expr.map_ty_of_renamed hargs, ← hargs.length_eq]
    split
    · exact (agree_lowerType ty).bind fun lowered => (agree_alloca lowered).bind fun slot =>
        (agree_prepare slot _).bind fun site => (agree_storeAll hR args hargs site 0).bind fun _ => agree_pure slot
    · exact (agree_lowerArguments hR args hargs name hcallee args.length 0).bind fun values =>
        agree_finishCall name values
  | .choice scrutinee cases ty _, _, .choice hs hcases _ _ _ => by
    rw [lowerExpr, lowerExpr, ← hs.ty]
    split
    · rcases coverage_renamed scrutinee.ty hcases [] with ⟨indices, hi, hi'⟩ | ⟨e, e', he, he'⟩
      · rw [hi, hi']
        refine (agree_lowerExpr hR scrutinee hs).bind fun subject => (agree_resultSlot ty).bind fun slot => ?_
        refine (agree_emit _).bind fun discriminant => (agree_caseTargets indices).bind fun targets => ?_
        refine agree_newBlock.bind fun fatal => agree_newBlock.bind fun join => ?_
        refine (agree_dispatch _ _ _).bind fun _ => ?_
        refine (agree_lowerCases hR cases hcases subject slot join targets).bind fun _ => ?_
        refine (agree_startBlock fatal).bind fun _ => (agree_leave _).bind fun _ => ?_
        refine (agree_startBlock join).bind fun _ => ?_
        cases slot with
        | some slot => exact agree_load slot
        | none => exact agree_pure _
      · rw [he, he']
        exact agree_fail e e'
    · exact agree_functionName.bind fun _ => agree_fault _ _

theorem agree_storeAll (hR : Relator.BiUnique R) : (args : List Expr) → ∀ {args' : List Expr},
    List.Forall₂ (Expr.Renamed R) args args' →
    ∀ site index, Agree R (storeAll site index args) (storeAll site index args')
  | [], _, .nil, _, _ => by
    rw [storeAll]
    exact agree_pure _
  | arg :: args, _, .cons ha hargs, site, index => by
    rw [storeAll, storeAll]
    exact (agree_lowerExpr hR arg ha).bind fun v => (agree_storeArgument site index v).bind fun _ =>
      agree_storeAll hR args hargs site (index + 1)

theorem agree_lowerArguments (hR : Relator.BiUnique R) : (args : List Expr) → ∀ {args' : List Expr},
    List.Forall₂ (Expr.Renamed R) args args' → ∀ name {callee callee' : Ty}, callee.SameParameters callee' →
    ∀ total position, Agree R (lowerArguments name callee total position args)
      (lowerArguments name callee' total position args')
  | [], _, .nil, _, _, _, _, _, _ => by
    rw [lowerArguments, lowerArguments]
    exact agree_pure _
  | arg :: args, _, .cons ha hargs, name, callee, callee', hcallee, total, position => by
    rw [lowerArguments_cons, lowerArguments_cons]
    refine agree_need_bind (hcallee.parameter? position) fun param param' hparam => ?_
    rw [lowerType, lowerType, CompilationUnit.lowerType_congr hparam]
    refine (agree_inUnit _).bind fun lowered => ?_
    refine (agree_lowerArgument (agree_lowerExpr hR arg ha) ha.ty hparam lowered).bind fun v => ?_
    exact (agree_lowerArguments hR args hargs name hcallee total (position + 1)).bind fun vs => agree_pure _

theorem agree_lowerCases (hR : Relator.BiUnique R) : (cases : List MatchCase) → ∀ {cases' : List MatchCase},
    List.Forall₂ (MatchCase.Renamed R) cases cases' → ∀ subject slot join targets,
    Agree R (lowerCases subject slot join targets cases) (lowerCases subject slot join targets cases')
  | [], _, .nil, _, _, _, targets => by
    cases targets <;> exact agree_pure ()
  | _ :: _, _, .cons (.mk _ _ _ _ _ _ _) _, _, _, _, [] => by
    rw [lowerCases, lowerCases]
    · exact agree_pure ()
    · nofun
    · nofun
  | ⟨_, _, body, _, _⟩ :: cases, _, .cons (.mk _ hbinding hbody _ _ _ _) hcases, subject, slot, join,
      target :: targets => by
    rw [Site.lowerCases_cons, Site.lowerCases_cons]
    refine (agree_startBlock _).bind fun _ => Agree.bind (agree_inScope ?_) fun _ => (agree_branchTo join).bind fun _ =>
      agree_lowerCases hR cases hcases subject slot join targets
    exact (agree_bindCase subject target.indices hbinding _ _).bind fun _ =>
      (agree_lowerExpr hR body hbody).bind fun v => agree_storeCase slot v

end

/-! ## Statements -/

theorem agree_fillInitial (hR : Relator.BiUnique R) (slot : ValueId) (ty : Ty) {e e' : Expr} (h : e.Renamed R e') :
    Agree R (fillInitial slot ty e) (fillInitial slot ty e') := by
  have stored : Agree R (do let v ← lowerExpr e; store slot v) (do let v ← lowerExpr e'; store slot v) :=
    (agree_lowerExpr hR e h).bind fun v => agree_store slot v
  cases h with
  | call name hargs hcallee explicit ety =>
    unfold fillInitial
    dsimp only
    rw [← hcallee.isDefined]
    split
    · unfold fill
      rw [← Expr.map_ty_of_renamed hargs]
      exact (agree_prepare slot _).bind fun site => agree_storeAll hR _ hargs site 0
    · exact stored
  | constant | text | ident | binary | choice => exact stored

theorem agree_lowerReturn (hR : Relator.BiUnique R) {value value' : Option Expr}
    (h : Option.Rel (Expr.Renamed R) value value') : Agree R (lowerReturn value) (lowerReturn value') := by
  refine agree_get_bind ?_
  rintro _ _ ⟨u, f, current, endBlock, scopes, scopes', -⟩
  dsimp only
  cases h with
  | none =>
    cases f.returnSlot with
    | none => exact (agree_pure ()).bind fun _ => agree_branchTo endBlock
    | some slot => exact (agree_fault _ _).bind fun _ => agree_branchTo endBlock
  | some h =>
    cases f.returnSlot with
    | none => exact (agree_fault _ _).bind fun _ => agree_branchTo endBlock
    | some slot =>
      exact (agree_lowerExpr hR _ h).bind fun v => (agree_store slot v).bind fun _ => agree_branchTo endBlock

mutual

theorem agree_lowerStatement (hR : Relator.BiUnique R) : (st : Statement) → ∀ {st' : Statement}, st.Renamed R st' →
    Agree R (lowerStatement st) (lowerStatement st')
  | .declare _ ty _ _, _, .declare hn _ hinitial _ _ => by
    rw [lowerStatement, lowerStatement]
    refine (agree_lowerType ty).bind fun lowered => (agree_alloca lowered).bind fun slot => ?_
    cases hinitial with
    | none => exact (agree_pure ()).bind fun _ => agree_define hn slot
    | some h => exact (agree_fillInitial hR slot ty h).bind fun _ => agree_define hn slot
  | .assign _ value _, _, .assign hn hvalue _ _ => by
    rw [lowerStatement, lowerStatement]
    exact (agree_slotOf hR hn).bind fun slot => (agree_lowerExpr hR value hvalue).bind fun v => agree_store slot v
  | .give _ _, _, .give hvalue _ _ => by
    rw [lowerStatement, lowerStatement]
    exact agree_lowerReturn hR hvalue
  | .branch condition whenTrue none _, _, .branch hc ht .none _ _ => by
    rw [lowerStatement, lowerStatement]
    refine (agree_lowerExpr hR condition hc).bind fun c => (agree_coerce c _).bind fun c => ?_
    refine agree_newBlock.bind fun thenBlock => agree_newBlock.bind fun join => ?_
    refine (agree_branchOn c thenBlock join).bind fun _ => (agree_startBlock thenBlock).bind fun _ => ?_
    refine (agree_lowerBody hR whenTrue ht).bind fun _ => (agree_branchTo join).bind fun _ => ?_
    exact agree_startBlock join
  | .branch condition whenTrue (some whenFalse) _, _, .branch hc ht (.some hf) _ _ => by
    rw [lowerStatement, lowerStatement]
    refine (agree_lowerExpr hR condition hc).bind fun c => (agree_coerce c _).bind fun c => ?_
    refine agree_newBlock.bind fun thenBlock => agree_newBlock.bind fun elseBlock => agree_newBlock.bind fun join => ?_
    refine (agree_branchOn c thenBlock elseBlock).bind fun _ => (agree_startBlock thenBlock).bind fun _ => ?_
    refine (agree_lowerBody hR whenTrue ht).bind fun _ => (agree_branchTo join).bind fun _ => ?_
    refine (agree_startBlock elseBlock).bind fun _ => (agree_lowerBody hR whenFalse hf).bind fun _ => ?_
    exact (agree_branchTo join).bind fun _ => agree_startBlock join
  | .effect value, _, .effect hvalue => by
    rw [lowerStatement, lowerStatement]
    exact (agree_lowerExpr hR value hvalue).bind fun _ => agree_pure ()

theorem agree_lowerBody (hR : Relator.BiUnique R) : (body : Body) → ∀ {body' : Body}, body.Renamed R body' →
    Agree R (lowerBody body) (lowerBody body')
  | ⟨statements, _, _⟩, _, .mk h _ _ _ _ => by
    rw [lowerBody, lowerBody]
    exact agree_inScope (agree_lowerStatements hR statements h)

theorem agree_lowerStatements (hR : Relator.BiUnique R) : (statements : List Statement) →
    ∀ {statements' : List Statement}, List.Forall₂ (Statement.Renamed R) statements statements' →
    Agree R (lowerStatements statements) (lowerStatements statements')
  | [], _, .nil => by
    rw [lowerStatements]
    exact agree_pure ()
  | statement :: rest, _, .cons h hrest => by
    rw [lowerStatements, lowerStatements]
    refine (agree_lowerStatement hR statement h).bind fun _ => agree_isTerminated.bind fun terminated => ?_
    cases terminated with
    | false => exact agree_lowerStatements hR rest hrest
    | true =>
      cases hrest with
      | nil => exact agree_pure ()
      | cons => exact agree_functionName.bind fun _ => agree_report _ _

end

/-! ## Functions -/

theorem agree_spillArguments (function : String) {params params' : List Param}
    (h : List.Forall₂ (fun p p' => R p.name p'.name ∧ p.ty = p'.ty) params params') :
    ∀ position, Agree R (spillArguments function position params) (spillArguments function position params') := by
  induction h with
  | nil => exact fun _ => agree_pure ()
  | cons hp _ ih =>
    intro position
    refine agree_get_bind ?_
    rintro _ _ ⟨u, f, current, endBlock, scopes, scopes', -⟩
    refine (agree_need _ _ _).bind fun argument => (agree_typeOf argument).bind fun ty => ?_
    refine (agree_alloca _).bind fun slot => (agree_store slot argument).bind fun _ => ?_
    exact (agree_define hp.1 slot).bind fun _ => ih (position + 1)

theorem agree_prepareReturn : Agree R prepareReturn prepareReturn := by
  refine agree_look_bind (fun _ _ => rfl) fun s => ?_
  split
  · exact agree_pure ()
  · exact (agree_alloca _).bind fun slot => agree_inFunction _

theorem agree_finishReturn : Agree R finishReturn finishReturn := by
  refine agree_look_bind (fun _ _ => rfl) fun s => ?_
  split
  · exact (agree_emit _).bind fun v => (agree_pure _).bind fun _ => agree_inFunction _
  · exact (agree_pure none).bind fun _ => agree_inFunction _

theorem agree_lowerFunctionBody (hR : Relator.BiUnique R) {item item' : FunctionItem}
    (hs : item.signature.Renamed R item'.signature) (hb : item.body.Renamed R item'.body) :
    Agree R (lowerFunctionBody item) (lowerFunctionBody item') := by
  unfold lowerFunctionBody
  rw [← hs.name]
  refine agree_prepareReturn.bind fun _ => (agree_spillArguments _ hs.params 0).bind fun _ => ?_
  refine (agree_lowerBody hR _ hb).bind fun _ => agree_look_bind (fun _ _ => rfl) fun s => ?_
  exact (agree_branchTo _).bind fun _ => (agree_startBlock _).bind fun _ => agree_finishReturn

end Lowering

namespace CompilationUnit

variable {u u' : CompilationUnit}

theorem defineFunction_renamed {item item' : FunctionItem} (h : item.Renamed item') (arguments : List LoweredType)
    (result : LoweredType) {f : Function} :
    Gives (defineFunction item arguments result) u f u' ↔ Gives (defineFunction item' arguments result) u f u' := by
  obtain ⟨R, hR, hs, hb⟩ := h
  unfold Gives defineFunction
  rw [← hs.name]
  dsimp only
  cases (Function.definition item.signature.name arguments result).result with
  | error e => simp
  | ok a =>
    cases hblocks : (Function.openBody (Function.definition item.signature.name arguments result).state).result with
    | error e => simp
    | ok p =>
      obtain ⟨entry, endBlock⟩ := p
      dsimp only
      have hstart : ∀ f₀, LoweringState.Renamed R ⟨u, f₀, entry, endBlock, [[]]⟩ ⟨u, f₀, entry, endBlock, [[]]⟩ :=
        fun f₀ => .mk u f₀ entry endBlock _ _ (.cons .nil .nil)
      cases Lowering.agree_lowerFunctionBody hR hs hb _ _ (hstart _) with
      | succeed ha hb hst => rw [ha, hb, hst.unit, hst.function]
      | fail he he' => simp [he, he', Except.map]

theorem lowerParams_renamed {params params' : List Param}
    (h : List.Forall₂ (fun p p' => R p.name p'.name ∧ p.ty = p'.ty) params params') :
    lowerParams params = lowerParams params' := by
  induction h with
  | nil => rfl
  | cons hp _ ih => rw [lowerParams, lowerParams, hp.2, ih]

theorem lowerSignature_renamed {s s' : Signature} (h : s.Renamed R s') : lowerSignature s = lowerSignature s' := by
  unfold lowerSignature Signature.result
  rw [lowerParams_renamed h.params, h.returnType]

theorem declareFunction_renamed {s s' : Signature} (h : s.Renamed R s') : declareFunction s = declareFunction s' := by
  unfold declareFunction
  rw [lowerSignature_renamed h, h.name]

theorem declareItem_renamed {item item' : Item} (h : item.Renamed item') : declareItem item = declareItem item' := by
  cases h with
  | function h =>
    obtain ⟨R, -, hs, -⟩ := h
    exact declareFunction_renamed hs
  | foreign h => exact declareFunction_renamed h
  | type => rfl

theorem lowerItem_renamed {item item' : Item} (h : item.Renamed item') :
    Gives (lowerItem item) u () u' ↔ Gives (lowerItem item') u () u' := by
  cases h with
  | @function f f' h =>
    have hdefine : ∀ u arguments result d u', Gives (defineFunction f arguments result) u d u' ↔
        Gives (defineFunction f' arguments result) u d u' :=
      fun _ arguments result _ _ => defineFunction_renamed h arguments result
    obtain ⟨R, -, hs, -⟩ := h
    simp only [lowerItem, lowerFunction, gives_bind, gives_report, lowerSignature_renamed hs, hdefine]
  | foreign h => exact Iff.rfl
  | type => exact Iff.rfl

/-- A pass without errors, on items whose steps succeed alike. -/
theorem collectingAll_congr {step : Item → Interning Unit} {items items' : List Item}
    (h : List.Forall₂ (fun i i' => ∀ u u', Gives (step i) u () u' ↔ Gives (step i') u () u') items items') :
    ∀ {u u'}, Gives (collectingAll step items) u [] u' ↔ Gives (collectingAll step items') u [] u' := by
  induction h with
  | nil => exact Iff.rfl
  | cons hi _ ih =>
    intro u u'
    rw [collectingAll_cons_gives, collectingAll_cons_gives]
    exact exists_congr fun v => and_congr (hi u v) ih

end CompilationUnit

open CompilationUnit in
/-- **Local names and positions leave no trace.**  If two modules differ in the names of parameters, variables and
payloads, the names of each function going over one-to-one, and in places, recorded scopes and backend handles, then
lowering succeeds on both or on neither, and the two units are equal. -/
theorem Module.lower_renamed {m m' : Module} (h : m.Renamed m') (options : Options) (u : CompilationUnit) :
    m.lower options = .ok u ↔ m'.lower options = .ok u := by
  have hdeclare : ∀ {v v'}, Gives (collectingAll declareItem m.items) v [] v' ↔
      Gives (collectingAll declareItem m'.items) v [] v' :=
    collectingAll_congr (h.items.imp fun _ _ hi _ _ => by rw [declareItem_renamed hi])
  have hlower : ∀ {v v'}, Gives (collectingAll lowerItem m.items) v [] v' ↔
      Gives (collectingAll lowerItem m'.items) v [] v' :=
    collectingAll_congr (h.items.imp fun _ _ hi _ _ => lowerItem_renamed hi)
  constructor
  · intro hm
    obtain ⟨u₁, h₁, h₂⟩ := lowerProgram_gives (Module.lower_gives hm)
    exact Module.lower_of_passes (h.name ▸ hdeclare.1 h₁) (hlower.1 h₂)
  · intro hm'
    obtain ⟨u₁, h₁, h₂⟩ := lowerProgram_gives (Module.lower_gives hm')
    exact Module.lower_of_passes (h.name ▸ hdeclare.2 h₁) (hlower.2 h₂)

namespace Sample

/-- `fn pick(value: i32 | string, other: i32) -> i32 { var result: i32 = other; result = match value { i32 as other =>
other, _ => result }; return result }`, with names to choose for the parameters and places to choose. -/
def picker (value other : String) (span : Span) : FunctionItem :=
  .of ⟨"pick", [⟨value, either, span⟩, ⟨other, .elementary .i32, span⟩], some (.elementary .i32), span⟩
    (.ofStatements [
      .declare "result" (.elementary .i32) (some (.ident other (.elementary .i32) span)) span,
      .assign "result" (.choice (.ident value either span)
        [.mk (some (.elementary .i32)) (some other) (.ident other (.elementary .i32) span) .empty span,
          .mk none none (.ident "result" (.elementary .i32) span) .empty span] (.elementary .i32) span) span,
      .give (some (.ident "result" (.elementary .i32) span)) span] span)

/-- `fn start() -> i32 { return pick(7, 2) }` -/
def starter (value other : String) (span : Span) : FunctionItem :=
  .of ⟨"start", [], some (.elementary .i32), span⟩
    (.ofStatements [.give (some (.ofCall "pick" [.constant (.int 7) (.elementary .i32) span,
      .constant (.int 2) (.elementary .i32) span] (picker value other span).signature.ty span)) span] span)

/-- A function that looks at its parameters under names to choose, and a call of it. -/
def picking (value other : String) (span : Span) : Module :=
  ⟨"sample", [.function (picker value other span), .function (starter value other span)], .empty⟩

/-- The names of the two parameters exchanged, in the function and for its callers. -/
theorem picking_renamed (span span' : Span) :
    (picking "value" "other" span).Renamed (picking "other" "value" span') := by
  let R : String → String → Prop := fun a b => Equiv.swap "value" "other" a = b
  have hR : Relator.BiUnique R := biUnique_of_injective (Equiv.swap "value" "other").injective
  have hvalue : R "value" "other" := Equiv.swap_apply_left _ _
  have hother : R "other" "value" := Equiv.swap_apply_right _ _
  have hresult : R "result" "result" := Equiv.swap_apply_of_ne_of_ne (by decide) (by decide)
  have hpick : (picker "value" "other" span).signature.Renamed R (picker "other" "value" span').signature :=
    ⟨rfl, .cons ⟨hvalue, rfl⟩ (.cons ⟨hother, rfl⟩ .nil), rfl⟩
  have hstart : (starter "value" "other" span).signature.Renamed R (starter "other" "value" span').signature :=
    ⟨rfl, .nil, rfl⟩
  refine ⟨rfl, .cons (.function ⟨R, hR, hpick, .mk ?_ _ _ _ _⟩)
    (.cons (.function ⟨R, hR, hstart, .mk ?_ _ _ _ _⟩) .nil)⟩
  · refine .cons (.declare hresult _ (.some (.ident hother _ _ _)) _ _) (.cons (.assign hresult ?_ _ _)
      (.cons (.give (.some (.ident hresult _ _ _)) _ _) .nil))
    exact .choice (.ident hvalue _ _ _) (.cons (.mk _ (.some hother) (.ident hother _ _ _) _ _ _ _)
      (.cons (.mk _ .none (.ident hresult _ _ _) _ _ _ _) .nil)) _ _ _
  · refine .cons (.give (.some ?_) _ _) .nil
    exact .call _ (.cons (.constant _ _ _ _) (.cons (.constant _ _ _ _) .nil)) hpick.sameParameters _ _ _ _

/-- Exchanging two names and moving the text changes nothing. -/
theorem picking_lower_renamed :
    (picking "value" "other" default).Renamed (picking "other" "value" (.ofRange 1 2)) ∧
      ∃ u, (picking "value" "other" default).lower {} = .ok u ∧
        (picking "other" "value" (.ofRange 1 2)).lower {} = .ok u := by
  have hrun : ((picking "value" "other" default).lower {}).toOption.isSome = true := by decide +kernel
  obtain ⟨u, hu⟩ := Option.isSome_iff_exists.1 hrun
  have hlower := eq_ok_of_toOption hu
  have hrenamed := picking_renamed default (.ofRange 1 2)
  exact ⟨hrenamed, u, hlower, (Module.lower_renamed hrenamed {} u).1 hlower⟩

end Sample

end BlockForm
