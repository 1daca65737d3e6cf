import BlockForm.Proofs.Mirror

/-!
# BlockForm.Proofs.MirrorLowering — every step of lowering a body is mirrored

The types that occur in an expression, a statement or a module are listed (`Expr.types` and its kin).  If they belong
to the family, lowering the expression or statement is mirrored in every embedded unit, construct by construct
(`mirrors_lowerExpr`, `mirrors_lowerStatement`), and so is lowering the body of a function
(`mirrors_lowerFunctionBody`).
-/

namespace BlockForm

open Action CompilationUnit Lasting

/-! ## Types that occur -/

mutual

/-- The types that occur in an expression. -/
def Expr.types : Expr → List Ty
  | .constant _ ty _ | .text _ ty _ | .ident _ ty _ => [ty]
  | .binary _ left right ty _ => ty :: (left.types ++ right.types)
  | .call _ args callee _ ty _ => ty :: callee :: Expr.typesList args
  | .choice scrutinee cases ty _ => ty :: (scrutinee.types ++ MatchCase.typesList cases)

/-- The types that occur in a list of expressions. -/
def Expr.typesList : List Expr → List Ty
  | [] => []
  | e :: es => e.types ++ Expr.typesList es

/-- The types that occur in the cases of a match. -/
def MatchCase.typesList : List MatchCase → List Ty
  | [] => []
  | ⟨pattern, _, body, _, _⟩ :: cases => pattern.toList ++ (body.types ++ MatchCase.typesList cases)

end

mutual

/-- The types that occur in a statement. -/
def Statement.types : Statement → List Ty
  | .declare _ ty initial _ => ty :: initial.elim [] Expr.types
  | .assign _ value _ => value.types
  | .give value _ => value.elim [] Expr.types
  | .branch condition whenTrue none _ => condition.types ++ whenTrue.types
  | .branch condition whenTrue (some whenFalse) _ => condition.types ++ (whenTrue.types ++ whenFalse.types)
  | .effect value => value.types

/-- The types that occur in a body. -/
def Body.types : Body → List Ty
  | ⟨statements, _, _⟩ => Statement.typesList statements

/-- The types that occur in a list of statements. -/
def Statement.typesList : List Statement → List Ty
  | [] => []
  | statement :: rest => statement.types ++ Statement.typesList rest

end

/-- The type of a parameter belongs to the family of the type of its function. -/
theorem Ty.Family.parameter? {P : Ty → Prop} (hP : Ty.Family P) {callee param : Ty} (h : P callee) {index : Nat}
    (hparam : callee.parameter? index = some param) : P param := by
  have hs := hP.stripLeaf h
  unfold Ty.parameter? at hparam
  split at hparam
  · next op params rest hop =>
    rw [hop] at hs
    have hfirst := hP.operand hs params (List.mem_cons_self ..)
    split at hparam
    · exact hP.operand hfirst param (List.mem_of_getElem? hparam)
    · split at hparam
      · cases hparam
        exact hfirst
      · cases hparam
  · cases hparam

namespace Lowering

variable {P : Ty → Prop} {F : CompilationUnit} {pre : Lasting}

/-! ## Construction and coverage -/

theorem mirrors_memberIndex (index : Nat) : Mirrors P F pre same (memberIndex index) (memberIndex index) :=
  .ite (fun _ => Iff.rfl) (mirrors_pure index) (mirrors_fault _ _ same)

theorem mirrors_enterMember (hF : Whole P F) (memory : ValueId) (index : Nat) :
    Mirrors P F pre same (enterMember memory index) (enterMember memory index) :=
  (mirrors_constant _ _).bind fun _ => .bind (mirrors_emit_same hF rfl) fun _ =>
    (mirrors_memberIndex index).bind fun _ => mirrors_emit_same hF rfl

theorem mirrors_enterPath (hF : Whole P F) (path : List Nat) (memory : ValueId) :
    Mirrors P F pre same (enterPath memory path) (enterPath memory path) := by
  induction path generalizing memory with
  | nil => exact mirrors_pure memory
  | cons index path ih => exact (mirrors_enterMember hF memory index).bind fun payload => ih payload

theorem mirrors_prepare (hF : Whole P F) (memory : ValueId) (plan : FillPlan) :
    Mirrors P F pre same (prepare memory plan) (prepare memory plan) := by
  refine (mirrors_enterPath hF plan.path memory).bind fun memory => ?_
  cases plan.goal with
  | impossible fault => exact mirrors_fault _ _ same
  | whole => exact mirrors_pure _
  | memberwise => exact mirrors_pure _

theorem mirrors_storeArgument (hF : Whole P F) (site : FillSite) (index : Nat) (v : ValueId) :
    Mirrors P F pre same (storeArgument site index v) (storeArgument site index v) := by
  unfold storeArgument
  cases site.goal with
  | memberwise =>
    exact (mirrors_memberIndex index).bind fun _ => .bind (mirrors_emit_same hF rfl) fun slot => mirrors_store hF slot v
  | whole => exact mirrors_store hF _ v
  | impossible fault => exact mirrors_store hF _ v

theorem mirrors_caseTargets (indices : List (List Nat)) :
    Mirrors P F pre same (caseTargets indices) (caseTargets indices) := by
  induction indices with
  | nil => exact mirrors_pure _
  | cons is rest ih => exact mirrors_newBlock.bind fun b => ih.bind fun targets => mirrors_pure _

theorem mirrors_testMember (hF : Whole P F) (discriminant : ValueId) (index : Nat) :
    Mirrors P F pre same (testMember discriminant index) (testMember discriminant index) :=
  (mirrors_constant _ _).bind fun _ => mirrors_emit_same hF rfl

theorem mirrors_dispatch (hF : Whole P F) (discriminant : ValueId) (fatal : BlockId) (tests : List (Nat × BlockId)) :
    Mirrors P F pre same (dispatch discriminant fatal tests) (dispatch discriminant fatal tests) := by
  induction tests with
  | nil => exact mirrors_branchTo fatal
  | cons p rest ih =>
    obtain ⟨index, block⟩ := p
    cases rest with
    | nil => exact (mirrors_testMember hF _ _).bind fun _ => mirrors_branchOn _ _ _
    | cons q rest =>
      exact (mirrors_testMember hF _ _).bind fun _ => mirrors_newBlock.bind fun next =>
        (mirrors_branchOn _ _ _).bind fun _ => (mirrors_startBlock next).bind fun _ => ih

theorem mirrors_bindPayload (hF : Whole P F) (scrutinee : ValueId) (indices : List Nat) (name : String) (span : Span) :
    Mirrors P F pre same (bindPayload scrutinee indices name span) (bindPayload scrutinee indices name span) := by
  unfold bindPayload
  split
  · exact .ite (fun _ => Iff.rfl) (.bind (mirrors_emit_same hF rfl) fun _ => mirrors_define _ _)
      (mirrors_fault _ _ same)
  · exact mirrors_fail _ same

/-! ## Expressions -/

theorem mirrors_lowerConstant (c : Constant) (ty : Ty) :
    Mirrors P F pre same (lowerConstant c ty) (lowerConstant c ty) := by
  unfold lowerConstant
  split
  · exact mirrors_constant _ _
  · exact mirrors_constant _ _

/-- A literal that is there by its content, in both units. -/
theorem mirrors_lowerLiteral (hF : Whole P F) (content : String) :
    Mirrors P F pre same (lowerLiteral content) (lowerLiteral content) where
  advances := fun h => by
    simp only [lowerLiteral, gives_bind (x := inUnit _), gives_inUnit, gives_get_bind, gives_need_bind,
      gives_inFunction] at h
    obtain ⟨id, _, ⟨u, hu, rfl⟩, g, -, f, -, rfl⟩ := h
    exact advances_of_internLiteral hu
  mirrors := fun {s t a s'} _ hst h hs' => by
    simp only [lowerLiteral, gives_bind (x := inUnit _), gives_inUnit, gives_get_bind, gives_need_bind,
      gives_inFunction] at h ⊢
    obtain ⟨id, _, ⟨u, hu, rfl⟩, g, hg, f, hf, rfl⟩ := h
    have hkey : F.globals.keys[id.index]? = some content :=
      Table.indexOf?_eq_some_iff.1 (Table.indexOf?_of_prefix hs'.globals
        (Table.indexOf?_eq_some_iff.2 (internLiteral_key hu)))
    obtain ⟨id', v, hv, hemb⟩ := hst.embedded.internLiteral hF.orderly (List.mem_of_getElem? hkey)
    have he := extends_of_internLiteral hv
    -- The literals are equal, since each is made from its content.
    have hgF := Option.some.inj ((Table.at?_of_prefix hs'.globals hg).symm.trans (hF.orderly.globalAt? hkey))
    have hgv : v.globalAt? id' = some g := by
      rw [hemb.orderly.globalAt? (internLiteral_key hv), hemb.options, hgF]
    have hecho := Function.echoes_literal (l := g) hkey (internLiteral_key hv) (by rw [hgF])
    obtain ⟨g', hg', hfg⟩ := hecho.run (hst.function.mono he.typedefs he.globals) hf
    refine ⟨a, _, ⟨id', _, ⟨v, hv, rfl⟩, _, hgv, g', hg', rfl⟩, he, rfl, ?_⟩
    exact ⟨hfg, hst.current, hst.endBlock, hst.scopes, hemb, hst.announced.of_extends he⟩
  rejects := fun h => absurd h (not_rejects_of_plain (plain_lowerLiteral (b := false) content))

theorem comparisonType_matches {u v u' v' : CompilationUnit} {f g : Function} (h : f.Matches u v g) (lhs rhs : ValueId)
    {l l' r r' : LoweredType} (hl : l.Matches u' v' l') (hr : r.Matches u' v' r') :
    (f.comparisonType lhs rhs l r).Matches u' v' (g.comparisonType lhs rhs l' r') := by
  simp only [Function.comparisonType, h.retypedConstant?_eq rhs hl, h.retypedConstant?_eq lhs hr, hl.elementary?_eq,
    hr.elementary?_eq]
  split
  · exact hl
  · split
    · exact hr
    · split
      · exact hr
      · exact hl

theorem mirrors_lowerOperator (hF : Whole P F) (op : BinaryOperator) {ty : Ty} (hty : P ty) (lhs rhs : ValueId) :
    Mirrors P F pre same (lowerOperator op ty lhs rhs) (lowerOperator op ty lhs rhs) := by
  unfold lowerOperator
  cases op.class with
  | arith op =>
    exact (mirrors_lowerType hF hty).bindWith fun target target' => .bind (mirrors_coerce hF lhs fun h => h.2) fun _ =>
      .bind (mirrors_coerce hF rhs fun h => h.2) fun _ => mirrors_emit_same hF rfl
  | cmp op =>
    refine (mirrors_typeOf lhs).bindWith fun l l' => (mirrors_typeOf rhs).bindWith fun r r' => .get_bind fun s t => ?_
    have htarget : ∀ {u}, (((pre.and (matching F l l')).and (matching F r r')).and (seen P F s t)).holds u →
        (s.function.comparisonType lhs rhs l r).Matches F u (t.function.comparisonType lhs rhs l' r') :=
      fun h => comparisonType_matches h.2.1.function lhs rhs h.1.1.2 h.1.2
    exact .bind (mirrors_coerce hF lhs htarget) fun _ => .bind (mirrors_coerce hF rhs htarget) fun _ =>
      mirrors_emit_same hF rfl
  | logic op =>
    exact .bind (mirrors_coerce hF lhs fun _ => .elementary _ _) fun _ =>
      .bind (mirrors_coerce hF rhs fun _ => .elementary _ _) fun _ => mirrors_emit_same hF rfl

theorem mirrors_finishCall (hF : Whole P F) (name : String) (args : List ValueId) :
    Mirrors P F pre same (finishCall name args) (finishCall name args) := by
  refine .bind (mirrors_emit_same hF rfl) fun result => .ite (fun _ => Iff.rfl) (mirrors_pure result) ?_
  refine (mirrors_typeOf result).bindWith fun ty ty' => .ite (fun h => by rw [h.2.isComposite_eq]) ?_
    (mirrors_pure result)
  exact .bind (mirrors_alloca hF fun h => h.2) fun slot => (mirrors_store hF slot result).bind fun _ =>
    mirrors_pure slot

theorem mirrors_resultSlot (hF : Whole P F) {ty : Ty} (hty : P ty) :
    Mirrors P F pre same (resultSlot ty) (resultSlot ty) :=
  (mirrors_lowerType hF hty).bindWith fun _ _ => .ite (fun h => by rw [h.2.isNil_eq]) (mirrors_pure none)
    (.bind (mirrors_alloca hF fun h => h.2) fun slot => mirrors_pure (some slot))

mutual

theorem mirrors_lowerExpr (hF : Whole P F) : (e : Expr) → ∀ {pre : Lasting}, (∀ ty ∈ e.types, P ty) →
    Mirrors P F pre same (lowerExpr e) (lowerExpr e)
  | .constant c ty _, _, _ => by
    rw [lowerExpr]
    exact mirrors_lowerConstant c ty
  | .text content _ _, _, _ => by
    rw [lowerExpr]
    exact mirrors_lowerLiteral hF content
  | .ident name _ _, _, _ => by
    rw [lowerExpr]
    exact (mirrors_slotOf name).bind fun slot => mirrors_load hF slot
  | .binary op left right ty _, _, he => by
    simp only [Expr.types, List.forall_mem_cons, List.forall_mem_append] at he
    rw [lowerExpr]
    exact (mirrors_lowerExpr hF left he.2.1).bind fun _ => (mirrors_lowerExpr hF right he.2.2).bind fun _ =>
      mirrors_lowerOperator hF op he.1 _ _
  | .call name [arg] callee true ty _, _, he => by
    simp only [Expr.types, Expr.typesList, List.append_nil, List.forall_mem_cons] at he
    rw [lowerExpr]
    exact (mirrors_lowerType hF he.1).bindWith fun _ _ => (mirrors_lowerExpr hF arg he.2.2).bind fun v =>
      mirrors_coerce hF v fun h => h.2
  | .call name [] callee true ty _, _, _ => by
    simp only [lowerExpr]
    exact mirrors_fault _ _ same
  | .call name (_ :: _ :: _) callee true ty _, _, _ => by
    simp only [lowerExpr]
    exact mirrors_fault _ _ same
  | .call name args callee false ty _, _, he => by
    simp only [Expr.types, List.forall_mem_cons] at he
    rw [lowerExpr.eq_def]
    simp only [Bool.false_eq_true, if_false]
    split
    · refine (mirrors_lowerType hF he.1).bindWith fun _ _ => .bind (mirrors_alloca hF fun h => h.2) fun slot => ?_
      exact (mirrors_prepare hF _ _).bind fun site => (mirrors_storeAll hF args site 0 he.2.2).bind fun _ =>
        mirrors_pure slot
    · exact (mirrors_lowerArguments hF args name args.length 0 he.2.1 he.2.2).bind fun _ => mirrors_finishCall hF _ _
  | .choice scrutinee cases ty _, _, he => by
    simp only [Expr.types, List.forall_mem_cons, List.forall_mem_append] at he
    rw [lowerExpr]
    split
    · split
      · exact mirrors_fail _ same
      · refine (mirrors_lowerExpr hF scrutinee he.2.1).bind fun subject => ?_
        refine (mirrors_resultSlot hF he.1).bind fun slot => ?_
        refine .bind (mirrors_emit_same hF rfl) fun _ => (mirrors_caseTargets _).bind fun targets => ?_
        refine mirrors_newBlock.bind fun fatal => mirrors_newBlock.bind fun join => ?_
        refine (mirrors_dispatch hF _ _ _).bind fun _ => ?_
        refine (mirrors_lowerCases hF cases subject slot join targets he.2.2).bind fun _ => ?_
        refine (mirrors_startBlock _).bind fun _ => (mirrors_leave _).bind fun _ => ?_
        refine (mirrors_startBlock _).bind fun _ => ?_
        cases slot with
        | some slot => exact mirrors_load hF slot
        | none => exact mirrors_pure _
    · exact mirrors_functionName.bind fun _ => mirrors_fault _ _ same

theorem mirrors_storeAll (hF : Whole P F) : (args : List Expr) → ∀ {pre : Lasting} (site : FillSite) (index : Nat),
    (∀ ty ∈ Expr.typesList args, P ty) → Mirrors P F pre same (storeAll site index args) (storeAll site index args)
  | [], _, _, _, _ => by
    rw [storeAll]
    exact mirrors_pure _
  | arg :: args, _, site, index, he => by
    simp only [Expr.typesList, List.forall_mem_append] at he
    rw [storeAll]
    exact (mirrors_lowerExpr hF arg he.1).bind fun _ => (mirrors_storeArgument hF _ _ _).bind fun _ =>
      mirrors_storeAll hF args site _ he.2

theorem mirrors_lowerArguments (hF : Whole P F) : (args : List Expr) → ∀ {pre : Lasting} (name : String) {callee : Ty}
    (total position : Nat), P callee → (∀ ty ∈ Expr.typesList args, P ty) →
    Mirrors P F pre same (lowerArguments name callee total position args)
      (lowerArguments name callee total position args)
  | [], _, _, _, _, _, _, _ => by
    rw [lowerArguments]
    exact mirrors_pure _
  | arg :: args, _, name, callee, total, position, hc, he => by
    simp only [Expr.typesList, List.forall_mem_append] at he
    rw [lowerArguments]
    refine mirrors_need_bind fun param hparam => ?_
    refine (mirrors_lowerType hF (hF.family.parameter? hc hparam)).bindWith fun lowered lowered' => ?_
    dsimp only
    split
    · exact .bind (mirrors_alloca hF fun h => h.2) fun _ => (mirrors_prepare hF _ _).bind fun _ =>
        (mirrors_lowerExpr hF arg he.1).bind fun _ => (mirrors_storeArgument hF _ _ _).bind fun _ =>
          (mirrors_pure _).bind fun _ => (mirrors_lowerArguments hF args name total _ hc he.2).bind fun _ =>
            mirrors_pure _
    · exact (mirrors_lowerExpr hF arg he.1).bind fun v => .bind (mirrors_coerce hF v fun h => h.2.asArgument) fun _ =>
        (mirrors_lowerArguments hF args name total _ hc he.2).bind fun _ => mirrors_pure _

theorem mirrors_lowerCases (hF : Whole P F) : (cases : List MatchCase) → ∀ {pre : Lasting} (subject : ValueId)
    (slot : Option ValueId) (join : BlockId) (targets : List CaseTarget), (∀ ty ∈ MatchCase.typesList cases, P ty) →
    Mirrors P F pre same (lowerCases subject slot join targets cases) (lowerCases subject slot join targets cases)
  | [], _, _, _, _, targets, _ => by
    cases targets <;> exact mirrors_pure _
  | ⟨_, binding, body, _, span⟩ :: cases, _, subject, slot, join, [], _ => by
    rw [lowerCases]
    · exact mirrors_pure _
    · nofun
  | ⟨_, binding, body, _, span⟩ :: cases, pre, subject, slot, join, target :: targets, he => by
    simp only [MatchCase.typesList, List.forall_mem_append] at he
    rw [lowerCases]
    refine (mirrors_startBlock _).bind fun _ => .bind (mirrors_inScope ?_) fun _ =>
      (mirrors_branchTo join).bind fun _ => mirrors_lowerCases hF cases subject slot join targets he.2.2
    have stored : ∀ v, Mirrors P F pre same (slot.elim (pure ()) fun slot => store slot v)
        (slot.elim (pure ()) fun slot => store slot v) := by
      intro v
      cases slot with
      | none => exact mirrors_pure _
      | some slot => exact mirrors_store hF slot v
    cases binding with
    | none =>
      refine (mirrors_lowerExpr hF body he.2.1).bind fun v => ?_
      cases slot <;> exact stored v
    | some name =>
      refine (mirrors_bindPayload hF _ _ _ _).bind fun _ => (mirrors_lowerExpr hF body he.2.1).bind fun v => ?_
      cases slot <;> exact stored v

end

/-! ## Statements -/

theorem mirrors_fillInitial (hF : Whole P F) (slot : ValueId) (ty : Ty) {e : Expr} (he : ∀ ty ∈ e.types, P ty) :
    Mirrors P F pre same (fillInitial slot ty e) (fillInitial slot ty e) := by
  unfold fillInitial
  split
  · split
    · refine (mirrors_prepare hF _ _).bind fun _ => mirrors_storeAll hF _ _ _ ?_
      simp only [Expr.types, List.forall_mem_cons] at he
      exact he.2.2
    · exact (mirrors_lowerExpr hF _ he).bind fun _ => mirrors_store hF _ _
  · exact (mirrors_lowerExpr hF _ he).bind fun _ => mirrors_store hF _ _

theorem mirrors_lowerReturn (hF : Whole P F) {value : Option Expr} (he : ∀ ty ∈ value.elim [] Expr.types, P ty) :
    Mirrors P F pre same (lowerReturn value) (lowerReturn value) := by
  refine .get_bind fun s t => .of_eq (fun h => ?_) ?_
  · rw [h.2.1.function.returnSlot, h.2.1.function.name, h.2.1.endBlock]
  · split
    · exact (mirrors_lowerExpr hF _ he).bind fun _ => (mirrors_store hF _ _).bind fun _ => mirrors_branchTo _
    · exact (mirrors_pure _).bind fun _ => mirrors_branchTo _
    · exact (mirrors_fault _ _ same).bind fun _ => mirrors_branchTo _

mutual

theorem mirrors_lowerStatement (hF : Whole P F) : (st : Statement) → ∀ {pre : Lasting}, (∀ ty ∈ st.types, P ty) →
    Mirrors P F pre same (lowerStatement st) (lowerStatement st)
  | .declare name ty initial _, _, he => by
    simp only [Statement.types, List.forall_mem_cons] at he
    rw [lowerStatement]
    refine (mirrors_lowerType hF he.1).bindWith fun _ _ => .bind (mirrors_alloca hF fun h => h.2) fun slot => ?_
    cases initial with
    | none => exact mirrors_define _ _
    | some e => exact (mirrors_fillInitial hF _ _ he.2).bind fun _ => mirrors_define _ _
  | .assign name value _, _, he => by
    rw [lowerStatement]
    exact (mirrors_slotOf name).bind fun _ => (mirrors_lowerExpr hF value he).bind fun _ => mirrors_store hF _ _
  | .give value _, _, he => by
    rw [lowerStatement]
    exact mirrors_lowerReturn hF he
  | .branch condition whenTrue (some whenFalse) _, _, he => by
    simp only [Statement.types, List.forall_mem_append] at he
    rw [lowerStatement]
    refine (mirrors_lowerExpr hF condition he.1).bind fun _ => ?_
    refine .bind (mirrors_coerce hF _ fun _ => .elementary _ _) fun _ => ?_
    refine mirrors_newBlock.bind fun _ => mirrors_newBlock.bind fun _ => mirrors_newBlock.bind fun _ => ?_
    refine (mirrors_branchOn _ _ _).bind fun _ => (mirrors_startBlock _).bind fun _ => ?_
    refine (mirrors_lowerBody hF whenTrue he.2.1).bind fun _ => (mirrors_branchTo _).bind fun _ => ?_
    refine (mirrors_startBlock _).bind fun _ => (mirrors_lowerBody hF whenFalse he.2.2).bind fun _ => ?_
    exact (mirrors_branchTo _).bind fun _ => mirrors_startBlock _
  | .branch condition whenTrue none _, _, he => by
    simp only [Statement.types, List.forall_mem_append] at he
    rw [lowerStatement]
    refine (mirrors_lowerExpr hF condition he.1).bind fun _ => ?_
    refine .bind (mirrors_coerce hF _ fun _ => .elementary _ _) fun _ => ?_
    refine mirrors_newBlock.bind fun _ => mirrors_newBlock.bind fun _ => (mirrors_branchOn _ _ _).bind fun _ => ?_
    refine (mirrors_startBlock _).bind fun _ => (mirrors_lowerBody hF whenTrue he.2).bind fun _ => ?_
    exact (mirrors_branchTo _).bind fun _ => mirrors_startBlock _
  | .effect value, _, he => by
    rw [lowerStatement]
    exact (mirrors_lowerExpr hF value he).bind fun _ => mirrors_pure _

theorem mirrors_lowerBody (hF : Whole P F) : (body : Body) → ∀ {pre : Lasting}, (∀ ty ∈ body.types, P ty) →
    Mirrors P F pre same (lowerBody body) (lowerBody body)
  | ⟨statements, _, _⟩, _, he => by
    rw [lowerBody]
    exact mirrors_inScope (mirrors_lowerStatements hF statements he)

theorem mirrors_lowerStatements (hF : Whole P F) : (statements : List Statement) → ∀ {pre : Lasting},
    (∀ ty ∈ Statement.typesList statements, P ty) →
    Mirrors P F pre same (lowerStatements statements) (lowerStatements statements)
  | [], _, _ => by
    rw [lowerStatements]
    exact mirrors_pure _
  | st :: rest, _, he => by
    simp only [Statement.typesList, List.forall_mem_append] at he
    rw [lowerStatements]
    refine (mirrors_lowerStatement hF st he.1).bind fun _ => mirrors_isTerminated.bind fun _ => ?_
    split
    · split
      · exact mirrors_pure _
      · exact mirrors_functionName.bind fun _ => mirrors_report _ _
    · exact mirrors_lowerStatements hF rest he.2

end

/-! ## Bodies -/

theorem mirrors_spillArguments (hF : Whole P F) (function : String) (params : List Param) :
    ∀ {pre : Lasting} (position : Nat),
      Mirrors P F pre same (spillArguments function position params) (spillArguments function position params) := by
  induction params with
  | nil => exact fun _ => mirrors_pure _
  | cons param params ih =>
    intro pre position
    refine .get_bind fun s t => .of_eq (fun h => ?_) ?_
    · rw [Function.argumentValue?, Function.argumentValue?, h.2.1.function.argumentValues]
    · refine (mirrors_need _ _ _).bind fun _ => (mirrors_typeOf _).bindWith fun _ _ => ?_
      refine .bind (mirrors_alloca hF fun h => h.2.pointee) fun _ => (mirrors_store hF _ _).bind fun _ => ?_
      exact (mirrors_define _ _).bind fun _ => ih _

theorem mirrors_prepareReturn (hF : Whole P F) : Mirrors P F pre same prepareReturn prepareReturn := by
  refine .get_bind fun s t => .ite (fun h => by rw [h.2.1.function.returnType.isNil_eq]) (mirrors_pure _) ?_
  refine .bind (mirrors_alloca hF fun h => h.2.1.function.returnType.mono h.2.2.typedefs) fun slot => ?_
  exact mirrors_inFunction (plain_modify fun _ => rfl) fun _ => Function.echoes_setReturnSlot slot

theorem finishReturn_eq : finishReturn = (do
    let s ← Action.get
    s.function.returnSlot.elim (inFunction (Function.setReturn s.unit s.current none)) fun slot => do
      let v ← emit (.read slot)
      inFunction (Function.setReturn s.unit s.current (some v))) := by
  refine bind_congr fun s => ?_
  cases s.function.returnSlot with
  | none => exact pure_bind _ _
  | some slot => exact bind_congr fun v => pure_bind _ _

theorem mirrors_finishReturn (hF : Whole P F) : Mirrors P F pre same finishReturn finishReturn := by
  rw [finishReturn_eq]
  refine .get_bind fun s t => ?_
  have give : ∀ value, Mirrors P F (pre.and (seen P F s t)) same
      (inFunction (Function.setReturn s.unit s.current value))
      (inFunction (Function.setReturn t.unit t.current value)) := fun value =>
    .subst (k := fun b => inFunction (Function.setReturn s.unit b value))
      (l := fun b => inFunction (Function.setReturn t.unit b value)) (fun h => h.2.1.current) fun b =>
        mirrors_inFunction (Function.plain_setReturn _ b value) fun _ => Function.echoes_setReturn _ _ b value
  exact .elim (fun h => h.2.1.function.returnSlot) (give none) fun slot =>
    .bind (mirrors_emit_same hF rfl) fun v => give (some v)

theorem mirrors_lowerFunctionBody (hF : Whole P F) {item : FunctionItem} (he : ∀ ty ∈ item.body.types, P ty) :
    Mirrors P F pre same (lowerFunctionBody item) (lowerFunctionBody item) := by
  refine (mirrors_prepareReturn hF).bind fun _ => (mirrors_spillArguments hF _ _ _).bind fun _ => ?_
  refine (mirrors_lowerBody hF item.body he).bind fun _ => .get_bind fun s t => .of_eq (fun h => ?_) ?_
  · rw [h.2.1.endBlock]
  · exact (mirrors_branchTo _).bind fun _ => (mirrors_startBlock _).bind fun _ => mirrors_finishReturn hF

end Lowering

end BlockForm
