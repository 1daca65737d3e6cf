import BlockForm.Proofs.ConstantTypes
import BlockForm.Proofs.Conventions

/-!
# BlockForm.Proofs.ExpressionValues — what expressions give

From a state that keeps to the conventions, an expression gives a representative of its value, and the state that it
ends in keeps to them again (`Lowering.lowerExpr_yields`).  The absent value is given only for an expression that has
nothing to give (`Expr.givesNothing`).

An expression says itself of which type the values are that it constructs, and where it calls that type elementary the
address of the slot would be that of an elementary value: `Expr.constructsComposites` excludes this.
-/

namespace BlockForm

open Action

mutual

/-- Every construction of a value is of a composite type. -/
def Expr.constructsComposites : Expr → Bool
  | .constant _ _ _ | .text _ _ _ | .ident _ _ _ => true
  | .binary _ left right _ _ => left.constructsComposites && right.constructsComposites
  | .call _ args callee explicit ty _ =>
    (explicit || !callee.isDefined || ty.isComposite) && Expr.allConstructComposites args
  | .choice scrutinee cases _ _ => scrutinee.constructsComposites && MatchCase.allConstructComposites cases

def Expr.allConstructComposites : List Expr → Bool
  | [] => true
  | e :: es => e.constructsComposites && Expr.allConstructComposites es

def MatchCase.allConstructComposites : List MatchCase → Bool
  | [] => true
  | ⟨_, _, body, _, _⟩ :: cases => body.constructsComposites && MatchCase.allConstructComposites cases

end

/-- What `ofConstruct` builds from such arguments for a composite type is of this kind. -/
theorem Expr.constructsComposites_ofConstruct {ty : Ty} {args : List Expr} {span : Span} (hty : ty.isComposite = true)
    (hargs : Expr.allConstructComposites args = true) :
    (Expr.ofConstruct ty args span).constructsComposites = true := by
  simp [ofConstruct, constructsComposites, hty, hargs]

/-- The expression has no value: it calls a function that returns nothing, or it is a match of type `nil`. -/
def Expr.givesNothing (u : CompilationUnit) : Expr → Bool
  | .call name _ callee false _ _ => !callee.isDefined && (u.function? name).any fun f => f.returnType.isNil
  | .choice _ _ ty _ => ty.isNil
  | _ => false

/-- The value that was given for the expression: a representative, or the absent value where there is none. -/
def LoweringState.Represents (s : LoweringState) (e : Expr) (v : ValueId) : Prop :=
  s.function.Represents v ∨ (v = Function.nilValue ∧ e.givesNothing s.unit = true)

/-- Such a value, if it has a type at all, has that of a representative. -/
theorem LoweringState.Represents.isRepresentative {s : LoweringState} {e : Expr} {v : ValueId} {ty : LoweredType}
    (h : s.Represents e v) (habsent : s.function.value? Function.nilValue = some .nil)
    (hty : s.function.valueType? v = some ty) : ty.isRepresentative = true := by
  rcases h with ⟨ty', hty', hr⟩ | ⟨rfl, -⟩
  · rwa [Option.some.inj (hty.symm.trans hty')]
  · rw [Function.valueType?, habsent] at hty
    cases hty

namespace Lowering

open LoweringState

variable {s : LoweringState}

/-- Whatever state that keeps to the conventions it is lowered from, the expression gives what represents its value. -/
def Represented (e : Expr) : Prop :=
  ∀ {s : LoweringState}, s.Conventional → Yields (lowerExpr e) s fun v s' => s'.Represents e v

/-- A case starts with its payload in scope, which is an address. -/
theorem bindCase_yields (hs : s.Conventional) (subject : ValueId) (indices : List Nat) (binding : Option String)
    (span : Span) : Yields (Site.bindCase subject indices binding span) s fun _ _ => True := by
  cases binding with
  | none => exact yields_pure hs trivial
  | some name =>
    unfold Site.bindCase bindPayload
    dsimp only
    split
    · split
      · exact (unionMemberAt_yields hs).bind fun payload t ht hp => yields_define ht.conventional hp
      · exact yields_fault
    · exact yields_fail

theorem neutral_storeCase (slot : Option ValueId) (v : ValueId) : Neutral (Site.storeCase slot v) := by
  cases slot with
  | none => exact neutral_pure ()
  | some slot => exact neutral_store slot v

theorem caseBody_yields {body : Expr} (hbody : Represented body) (hs : s.Conventional) {subject : ValueId}
    {slot : Option ValueId} {indices : List Nat} {binding : Option String} {span : Span} :
    Yields (inScope do
      Site.bindCase subject indices binding span
      let v ← lowerExpr body
      Site.storeCase slot v) s fun _ _ => True := by
  refine yields_inScope hs fun hinner => ?_
  refine (bindCase_yields hinner subject indices binding span).bind fun _ s₁ h₁ _ => ?_
  refine (hbody h₁.conventional).bind fun v s₂ h₂ _ => ?_
  exact (neutral_storeCase slot v).goes h₂.conventional

theorem lowerArgument_yields {arg : Expr} (harg : Represented arg) (hs : s.Conventional) {param : Ty}
    {lowered : LoweredType} : Yields (lowerArgument param lowered arg) s fun _ _ => True := by
  unfold lowerArgument
  split
  · refine (alloca_yields hs).bind fun slot s₁ h₁ _ => ?_
    refine ((neutral_prepare slot _).goes h₁.conventional).bind fun site s₂ h₂ _ => ?_
    refine (harg h₂.conventional).bind fun v s₃ h₃ _ => ?_
    refine ((neutral_storeArgument site 0 v).goes h₃.conventional).bind fun _ s₄ h₄ _ => ?_
    exact yields_pure h₄.conventional trivial
  · refine (harg hs).bind fun v s₁ h₁ _ => ?_
    exact (neutral_coerce v _).goes h₁.conventional

/-! ## What comes before the parts of a construction or a match

The beginnings are set apart as steps of their own, which the equations below put back. -/

/-- A slot for a value that is constructed, and the place in it at which the arguments go. -/
def enterConstruction (args : List Expr) (ty : Ty) : Lowering (ValueId × FillSite) := do
  let lowered ← lowerType ty
  let slot ← alloca lowered
  let site ← prepare slot (.of (args.map Expr.ty) ty)
  return (slot, site)

theorem lowerExpr_construction {name : String} {args : List Expr} {callee ty : Ty} {span : Span}
    (h : callee.isDefined = true) : lowerExpr (.call name args callee false ty span) = (do
      let (slot, site) ← enterConstruction args ty
      storeAll site 0 args
      return slot) := by
  rw [lowerExpr.eq_def]
  simp [h, enterConstruction, bind_assoc]

theorem enterConstruction_yields (hs : s.Conventional) (args : List Expr) {ty : Ty} (hty : ty.isComposite = true) :
    Yields (enterConstruction args ty) s fun r s' => s'.function.Represents r.1 := by
  refine (lowerType_yields hs ty).bind fun lowered s₁ h₁ hlowered => ?_
  refine (alloca_yields h₁.conventional).bind fun slot s₂ h₂ hslot => ?_
  refine ((neutral_prepare slot _).goes h₂.conventional).bind fun site s₃ h₃ _ => ?_
  have hcomposite := LoweredType.isComposite_of_elementary? (hlowered.2.trans (Ty.elementary?_of_isComposite hty))
  exact yields_pure h₃.conventional ⟨_, h₃.grows.valueType? hslot, LoweredType.isRepresentative_pointerTo hcomposite⟩

/-- What the cases of a match are lowered with. -/
structure MatchSite where
  subject : ValueId
  slot : Option ValueId
  fatal : BlockId
  join : BlockId
  targets : List CaseTarget

/-- The scrutinee of a match, the slot for the result, and the tests. -/
def enterMatch (scrutinee : Expr) (indices : List (List Nat)) (ty : Ty) : Lowering MatchSite := do
  let subject ← lowerExpr scrutinee
  let slot ← resultSlot ty
  let discriminant ← emit (.getUnionIdx subject)
  let targets ← caseTargets indices
  let fatal ← newBlock
  let join ← newBlock
  dispatch discriminant fatal (tests targets)
  return ⟨subject, slot, fatal, join, targets⟩

/-- The end of a match: the block that is not to be reached, and the result. -/
def finishMatch (m : MatchSite) : Lowering ValueId := do
  startBlock m.fatal
  leave .unreachable
  startBlock m.join
  match m.slot with
  | some slot => load slot
  | none => return Function.nilValue

theorem lowerExpr_match {scrutinee : Expr} {cases : List MatchCase} {ty : Ty} {span : Span} {indices : List (List Nat)}
    (hsum : scrutinee.ty.isSum = true) (hcov : coverage scrutinee.ty [] cases = .ok indices) :
    lowerExpr (.choice scrutinee cases ty span) = (do
      let m ← enterMatch scrutinee indices ty
      lowerCases m.subject m.slot m.join m.targets cases
      finishMatch m) := by
  rw [lowerExpr]
  simp only [hsum, hcov, if_true, enterMatch, bind_assoc, pure_bind]
  rfl

/-- The slot of a match is an address, unless the match is of type `nil` and has none. -/
def MatchSite.Holds (m : MatchSite) (ty : Ty) (f : Function) : Prop :=
  (m.slot = none ∧ ty.isNil = true) ∨ ∃ w, m.slot = some w ∧ f.IsAddress w

theorem enterMatch_yields {scrutinee : Expr} (hscrutinee : Represented scrutinee) (hs : s.Conventional)
    (indices : List (List Nat)) (ty : Ty) :
    Yields (enterMatch scrutinee indices ty) s fun m s' => m.Holds ty s'.function := by
  refine (hscrutinee hs).bind fun subject s₁ h₁ _ => ?_
  refine (resultSlot_yields h₁.conventional ty).bind fun slot s₂ h₂ hslot => ?_
  refine ((neutral_emit _).goes h₂.conventional).bind fun discriminant s₃ h₃ _ => ?_
  refine ((neutral_caseTargets indices).goes h₃.conventional).bind fun targets s₄ h₄ _ => ?_
  refine (neutral_newBlock.goes h₄.conventional).bind fun fatal s₅ h₅ _ => ?_
  refine (neutral_newBlock.goes h₅.conventional).bind fun join s₆ h₆ _ => ?_
  refine ((neutral_dispatch discriminant fatal (tests targets)).goes h₆.conventional).bind fun _ s₇ h₇ _ => ?_
  have hg := h₃.grows.trans (h₄.grows.trans (h₅.grows.trans (h₆.grows.trans h₇.grows)))
  refine yields_pure h₇.conventional (hslot.imp_right fun hw => ?_)
  obtain ⟨w, rfl, hw⟩ := hw
  exact ⟨w, rfl, hw.grow hg⟩

theorem finishMatch_yields {m : MatchSite} {ty : Ty} (hs : s.Conventional) (hm : m.Holds ty s.function) :
    Yields (finishMatch m) s fun v s' => s'.function.Represents v ∨ (v = Function.nilValue ∧ ty.isNil = true) := by
  refine ((neutral_startBlock m.fatal).goes hs).bind fun _ s₁ h₁ _ => ?_
  refine (neutral_leave.goes h₁.conventional).bind fun _ s₂ h₂ _ => ?_
  refine ((neutral_startBlock m.join).goes h₂.conventional).bind fun _ s₃ h₃ _ => ?_
  obtain ⟨subject, slot, fatal, join, targets⟩ := m
  rcases hm with ⟨rfl, hnil⟩ | ⟨w, rfl, hw⟩
  · exact yields_pure h₃.conventional (Or.inr ⟨rfl, hnil⟩)
  · have hg := h₁.grows.trans (h₂.grows.trans h₃.grows)
    exact (load_yields h₃.conventional (hw.grow hg)).mono fun _ _ => Or.inl

/-! ## Expressions -/

mutual

theorem lowerExpr_yields : (e : Expr) → e.constructsComposites = true → Represented e
  | .constant c ty _, _, s, hs => by
    rw [lowerExpr]
    exact (lowerConstant_yields hs c ty).mono fun _ _ => Or.inl
  | .text content _ _, _, s, hs => by
    rw [lowerExpr]
    exact (lowerLiteral_yields hs content).mono fun _ _ => Or.inl
  | .ident name _ _, _, s, hs => by
    rw [lowerExpr]
    exact yields_slotOf_bind hs fun slot hslot => (load_yields hs hslot).mono fun _ _ => Or.inl
  | .binary op left right ty _, he, s, hs => by
    obtain ⟨hl, hr⟩ := Bool.and_eq_true_iff.1 he
    rw [lowerExpr]
    refine (lowerExpr_yields left hl hs).bind fun lhs s₁ h₁ _ => ?_
    refine (lowerExpr_yields right hr h₁.conventional).bind fun rhs s₂ h₂ _ => ?_
    exact (lowerOperator_yields h₂.conventional op ty lhs rhs).mono fun _ _ => Or.inl
  | .call name [arg] callee true ty _, he, s, hs => by
    have harg : (arg.constructsComposites && true) = true := he
    rw [lowerExpr]
    refine (lowerType_yields hs ty).bind fun target s₁ h₁ _ => ?_
    refine (lowerExpr_yields arg (Bool.and_eq_true_iff.1 harg).1 h₁.conventional).bind fun v s₂ h₂ hv => ?_
    exact (coerce_yields h₂.conventional fun _ => hv.isRepresentative h₂.conventional.absent).mono fun _ _ => Or.inl
  | .call name [] callee true ty _, _, s, hs => by
    simp only [lowerExpr]
    exact yields_fault
  | .call name (_ :: _ :: _) callee true ty _, _, s, hs => by
    simp only [lowerExpr]
    exact yields_fault
  | .call name args callee false ty _, he, s, hs => by
    obtain ⟨hty, hargs⟩ := Bool.and_eq_true_iff.1 he
    cases hd : callee.isDefined with
    | true =>
      rw [lowerExpr_construction hd]
      refine (enterConstruction_yields hs args (by simpa [hd] using hty)).bind fun r s₁ h₁ hr => ?_
      refine (storeAll_yields args hargs r.2 0 h₁.conventional).bind fun _ s₂ h₂ _ => ?_
      exact yields_pure h₂.conventional (Or.inl (hr.grow h₂.grows))
    | false =>
      rw [lowerExpr.eq_def]
      simp only [hd, Bool.false_eq_true, if_false]
      refine (lowerArguments_yields args hargs name callee args.length 0 hs).bind fun values s₁ h₁ _ => ?_
      refine (finishCall_yields h₁.conventional name values).mono fun v s₂ hv => hv.imp_right fun hnil => ?_
      obtain ⟨rfl, f, hf, hn⟩ := hnil
      exact ⟨rfl, by simp [Expr.givesNothing, hd, hf, hn]⟩
  | .choice scrutinee cases ty _, he, s, hs => by
    obtain ⟨hscrutinee, hcases⟩ := Bool.and_eq_true_iff.1 he
    cases hsum : scrutinee.ty.isSum with
    | false =>
      simp only [lowerExpr, hsum, Bool.false_eq_true, if_false]
      exact yields_get_bind yields_fault
    | true =>
      cases hcov : coverage scrutinee.ty [] cases with
      | error e =>
        simp only [lowerExpr, hsum, hcov, if_true]
        exact yields_fail
      | ok indices =>
        rw [lowerExpr_match hsum hcov]
        refine (enterMatch_yields (lowerExpr_yields scrutinee hscrutinee) hs indices ty).bind fun m s₁ h₁ hm => ?_
        have hbodies := lowerCases_yields cases hcases m.subject m.slot m.join m.targets h₁.conventional
        refine hbodies.bind fun _ s₂ h₂ _ => ?_
        refine finishMatch_yields h₂.conventional (hm.imp_right fun hw => ?_)
        obtain ⟨w, hslot, hw⟩ := hw
        exact ⟨w, hslot, hw.grow h₂.grows⟩

theorem storeAll_yields : (args : List Expr) → Expr.allConstructComposites args = true →
    ∀ site index {s : LoweringState}, s.Conventional → Yields (storeAll site index args) s fun _ _ => True
  | [], _, _, _, s, hs => by
    rw [storeAll]
    exact yields_pure hs trivial
  | arg :: args, he, site, index, s, hs => by
    obtain ⟨harg, hargs⟩ := Bool.and_eq_true_iff.1 he
    rw [storeAll]
    refine (lowerExpr_yields arg harg hs).bind fun v s₁ h₁ _ => ?_
    refine ((neutral_storeArgument site index v).goes h₁.conventional).bind fun _ s₂ h₂ _ => ?_
    exact storeAll_yields args hargs site (index + 1) h₂.conventional

theorem lowerArguments_yields : (args : List Expr) → Expr.allConstructComposites args = true →
    ∀ name callee total position {s : LoweringState}, s.Conventional →
    Yields (lowerArguments name callee total position args) s fun _ _ => True
  | [], _, _, _, _, _, s, hs => by
    rw [lowerArguments]
    exact yields_pure hs trivial
  | arg :: args, he, name, callee, total, position, s, hs => by
    obtain ⟨harg, hargs⟩ := Bool.and_eq_true_iff.1 he
    rw [lowerArguments_cons]
    refine yields_need_bind fun param _ => (lowerType_yields hs param).bind fun lowered s₁ h₁ _ => ?_
    refine (lowerArgument_yields (lowerExpr_yields arg harg) h₁.conventional).bind fun v s₂ h₂ _ => ?_
    refine (lowerArguments_yields args hargs name callee total (position + 1) h₂.conventional).bind fun vs s₃ h₃ _ => ?_
    exact yields_pure h₃.conventional trivial

theorem lowerCases_yields : (cases : List MatchCase) → MatchCase.allConstructComposites cases = true →
    ∀ subject slot join targets {s : LoweringState}, s.Conventional →
    Yields (lowerCases subject slot join targets cases) s fun _ _ => True
  | [], _, _, _, _, targets, s, hs => by
    cases targets <;> exact yields_pure hs trivial
  | _ :: _, _, _, _, _, [], s, hs => by
    rw [lowerCases]
    · exact yields_pure hs trivial
    · nofun
  | ⟨pattern, binding, body, symbols, span⟩ :: cases, he, subject, slot, join, target :: targets, s, hs => by
    obtain ⟨hbody, hcases⟩ := Bool.and_eq_true_iff.1 he
    rw [Site.lowerCases_cons]
    refine ((neutral_startBlock target.block).goes hs).bind fun _ s₁ h₁ _ => ?_
    refine (caseBody_yields (lowerExpr_yields body hbody) h₁.conventional).bind fun _ s₂ h₂ _ => ?_
    refine ((neutral_branchTo join).goes h₂.conventional).bind fun _ s₃ h₃ _ => ?_
    exact lowerCases_yields cases hcases subject slot join targets h₃.conventional

end

end Lowering

end BlockForm
