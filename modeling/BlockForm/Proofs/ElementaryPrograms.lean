import BlockForm.Proofs.Completion
import BlockForm.Proofs.Parameters
import BlockForm.Proofs.Soundness
import BlockForm.Proofs.StatementMeaning

/-!
# BlockForm.Proofs.ElementaryPrograms — elementary programs, and how their expressions lower

An elementary program has values of elementary types only, uses names that are in scope, and calls functions of its
module as these are declared.  Its expressions lower to scalars without errors, within the block they start in
(`lowerExpr_completes`).
-/

namespace BlockForm

open Action

/-! ## Elementary programs -/

/-- The operator computes a number. -/
def BinaryOperator.isArithmetic (op : BinaryOperator) : Bool :=
  match op.class with
  | .arith _ => true
  | .cmp _ | .logic _ => false

namespace Signature

/-- Parameters are elementary and not `nil`, the result is elementary. -/
def isElementary (s : Signature) : Bool :=
  s.params.all (fun p => p.ty.isElementary && !p.ty.isNil) && s.result.isElementary

/-- A call by this name, of this type and with so many arguments is one of the function. -/
def isCalled (s : Signature) (name : String) (callee : Ty) (count : Nat) : Bool :=
  decide (s.name = name ∧ s.ty = callee ∧ s.params.length = count)

theorem isCalled_iff {s : Signature} {name : String} {callee : Ty} {count : Nat} :
    s.isCalled name callee count = true ↔ s.name = name ∧ s.ty = callee ∧ s.params.length = count :=
  decide_eq_true_iff

end Signature

mutual

/-- The expression has a value of an elementary type: a constant, a name in scope, an operator that is annotated with
a numeric type if it computes a number, a conversion to an elementary type, or a call of a function that returns
something. -/
def Expr.isElementary (signatures : List Signature) (scope : List String) : Expr → Bool
  | .constant _ _ _ => true
  | .ident name _ _ => decide (name ∈ scope)
  | .binary op left right ty _ =>
    left.isElementary signatures scope && right.isElementary signatures scope &&
      (!op.isArithmetic || ty.elementary?.any Elementary.isNumeric)
  | .call name args callee explicit ty _ =>
    Expr.areElementary signatures scope args &&
      if explicit then decide (args.length = 1) && ty.isElementary
      else signatures.any fun s => s.isCalled name callee args.length && !s.result.isNil
  | .text _ _ _ | .choice _ _ _ _ => false

/-- Every expression has a value of an elementary type. -/
def Expr.areElementary (signatures : List Signature) (scope : List String) : List Expr → Bool
  | [] => true
  | e :: es => e.isElementary signatures scope && Expr.areElementary signatures scope es

end

/-- The expression has a value of an elementary type, or it is a call of a function that returns nothing. -/
def Expr.isElementaryEffect (signatures : List Signature) (scope : List String) (e : Expr) : Bool :=
  e.isElementary signatures scope ||
    match e with
    | .call name args callee false _ _ =>
      Expr.areElementary signatures scope args &&
        signatures.any fun s => s.isCalled name callee args.length && s.result.isNil
    | _ => false

/-- The names in scope after a statement. -/
def Statement.binds (scope : List String) : Statement → List String
  | .declare name _ _ _ => name :: scope
  | _ => scope

mutual

/-- The statement has elementary variables and expressions; it returns a value exactly if the function `gives` one. -/
def Statement.isElementary (signatures : List Signature) (gives : Bool) (scope : List String) : Statement → Bool
  | .declare _ ty initial _ => ty.isElementary && initial.all fun e => e.isElementary signatures scope
  | .assign name value _ => decide (name ∈ scope) && value.isElementary signatures scope
  | .give (some value) _ => gives && value.isElementary signatures scope
  | .give none _ => !gives
  | .branch condition whenTrue none _ =>
    condition.isElementary signatures scope && whenTrue.isElementary signatures gives scope
  | .branch condition whenTrue (some whenFalse) _ =>
    condition.isElementary signatures scope && whenTrue.isElementary signatures gives scope &&
      whenFalse.isElementary signatures gives scope
  | .effect value => value.isElementaryEffect signatures scope

/-- The statements are elementary, in a scope of their own. -/
def Body.isElementary (signatures : List Signature) (gives : Bool) (scope : List String) : Body → Bool
  | ⟨statements, _, _⟩ => Statement.areElementary signatures gives scope statements

/-- Every statement is elementary, with the names that the ones before it declare. -/
def Statement.areElementary (signatures : List Signature) (gives : Bool) (scope : List String) :
    List Statement → Bool
  | [] => true
  | st :: rest =>
    st.isElementary signatures gives scope && Statement.areElementary signatures gives (st.binds scope) rest

end

/-- A declaration with an elementary signature, or a definition with an elementary body too; not a type. -/
def Item.isElementary (signatures : List Signature) : Item → Bool
  | .function f =>
    f.signature.isElementary &&
      f.body.isElementary signatures (!f.signature.result.isNil) (f.signature.params.map Param.name)
  | .foreign s => s.isElementary
  | .type _ => false

/-- The items of the module have distinct names, and every one is elementary. -/
structure Module.IsElementary (m : Module) : Prop where
  distinct : (m.items.map Item.name).Nodup
  items : ∀ item ∈ m.items, item.isElementary m.signatures = true

instance (m : Module) : Decidable m.IsElementary :=
  decidable_of_iff ((m.items.map Item.name).Nodup ∧ ∀ item ∈ m.items, item.isElementary m.signatures = true)
    ⟨fun h => ⟨h.1, h.2⟩, fun h => ⟨h.1, h.2⟩⟩

/-! ## Signatures -/

namespace Signature

variable {t : Signature}

theorem elementary?_of_mem (ht : t.isElementary = true) {p : Param} (hp : p ∈ t.params) :
    ∃ e, p.ty.elementary? = some e ∧ p.ty.isNil = false := by
  rw [isElementary, Bool.and_eq_true, List.all_eq_true] at ht
  have h := ht.1 p hp
  rw [Bool.and_eq_true, Ty.isElementary, Option.isSome_iff_exists, Bool.not_eq_true'] at h
  obtain ⟨⟨e, he⟩, hn⟩ := h
  exact ⟨e, he, hn⟩

theorem elementary?_result (ht : t.isElementary = true) : ∃ e, t.result.elementary? = some e := by
  rw [isElementary, Bool.and_eq_true] at ht
  exact Option.isSome_iff_exists.1 ht.2

/-- The function type has a named member for each parameter. -/
theorem parameter?_of_isElementary (ht : t.isElementary = true) {i : Nat} {p : Param} (hp : t.params[i]? = some p) :
    t.ty.parameter? i = some (.leaf p.name p.ty) := by
  have htakes : t.takesNil = false := by
    unfold takesNil
    split
    · next q hparams =>
      obtain ⟨-, -, hn⟩ := elementary?_of_mem ht (p := q) (by simp [hparams])
      exact hn
    · rfl
  rw [parameter?_ty, htakes, hp]
  rfl

end Signature

namespace CompilationUnit

variable {u : CompilationUnit}

/-- The lowered types are those of the parameters. -/
def ParamsLowered (params : List Param) (tys : List LoweredType) : Prop :=
  List.Forall₂ (fun p ty => ∃ e, p.ty.elementary? = some e ∧ ty = .elementary e) params tys

theorem lowerParams_gives_elementary {params : List Param} (u : CompilationUnit)
    (hp : ∀ p ∈ params, ∃ e, p.ty.elementary? = some e) :
    ∃ tys, Gives (lowerParams params) u tys u ∧ ParamsLowered params tys := by
  induction params with
  | nil => exact ⟨[], gives_pure.2 ⟨rfl, rfl⟩, .nil⟩
  | cons p params ih =>
    obtain ⟨e, he⟩ := hp p (List.mem_cons_self ..)
    obtain ⟨tys, htys, hl⟩ := ih fun q hq => hp q (List.mem_cons_of_mem _ hq)
    refine ⟨.elementary e :: tys, ?_, .cons ⟨e, he, rfl⟩ hl⟩
    simp only [lowerParams, gives_bind, gives_pure]
    exact ⟨_, _, Lowering.lowerType_gives_elementary he, tys, u, htys, rfl, rfl⟩

/-- **An elementary signature lowers to its elementary types**, and the unit stays as it is. -/
theorem lowerSignature_gives_elementary {t : Signature} (ht : t.isElementary = true) (u : CompilationUnit) :
    ∃ arguments e, Gives (lowerSignature t) u (arguments, .elementary e) u ∧ ParamsLowered t.params arguments ∧
      t.result.elementary? = some e := by
  obtain ⟨arguments, ha, hl⟩ := lowerParams_gives_elementary u fun p hp => by
    obtain ⟨e, he, -⟩ := Signature.elementary?_of_mem ht hp
    exact ⟨e, he⟩
  obtain ⟨e, he⟩ := Signature.elementary?_result ht
  refine ⟨arguments, e, ?_, hl, he⟩
  simp only [lowerSignature, gives_bind, gives_pure]
  exact ⟨arguments, u, ha, _, u, Lowering.lowerType_gives_elementary he, rfl, rfl⟩

/-- The function of an elementary signature has elementary types. -/
theorem Declares.elementary {t : Signature} (h : u.Declares t) (ht : t.isElementary = true) :
    ∃ f e, u.function? t.name = some f ∧ f.returnType = .elementary e ∧ t.result.elementary? = some e ∧
      ParamsLowered t.params f.arguments := by
  obtain ⟨f, hf, hagain⟩ := h
  obtain ⟨arguments, e, hgives, hl, he⟩ := lowerSignature_gives_elementary ht u
  obtain ⟨hpair, -⟩ := hgives.unique (hagain (List.prefix_refl _))
  obtain ⟨ha, hr⟩ := Prod.mk.inj hpair
  exact ⟨f, e, hf, hr.symm, he, ha ▸ hl⟩

end CompilationUnit

/-! ## What a body finds -/

/-- The state of lowering the body of an elementary function: the unit has the functions of the module, there is a
return slot exactly if the function `gives` a value, the names of the scope have slots, and the end block waits. -/
structure LoweringState.Supports (s : LoweringState) (signatures : List Signature) (gives : Bool)
    (scope : List String) : Prop where
  elementary : ∀ t ∈ signatures, t.isElementary = true
  declares : ∀ t ∈ signatures, s.unit.Declares t
  returns : s.function.returnSlot.isSome = gives
  isNil : s.function.returnType.isNil = !gives
  isScoped : s.scopes ≠ []
  binds : ∀ name ∈ scope, ∃ names ∈ s.scopes, name ∈ names.map Prod.fst
  ending : s.function.Waits s.endBlock

namespace LoweringState

variable {s s' : LoweringState} {signatures : List Signature} {gives : Bool} {scope : List String}

theorem After.supports {used : List BlockId} (h : After used s s') (hend : s.endBlock ∉ used)
    (hscopes : s'.scopes = s.scopes) (hp : s.Supports signatures gives scope) : s'.Supports signatures gives scope where
  elementary := hp.elementary
  declares := h.unit ▸ hp.declares
  returns := h.changes.returnSlot_eq ▸ hp.returns
  isNil := h.changes.grows.returnType ▸ hp.isNil
  isScoped := hscopes ▸ hp.isScoped
  binds := hscopes ▸ hp.binds
  ending := h.endBlock ▸ h.waits hend hp.ending

theorem Within.supports (h : s.Within s') (hp : s.Supports signatures gives scope) :
    s'.Supports signatures gives scope where
  elementary := hp.elementary
  declares := h.unit ▸ hp.declares
  returns := h.changes.returnSlot_eq ▸ hp.returns
  isNil := h.changes.grows.returnType ▸ hp.isNil
  isScoped := h.scopes ▸ hp.isScoped
  binds := h.scopes ▸ hp.binds
  ending := h.endBlock ▸ h.waits hp.ending

end LoweringState

/-- Lowering is in an open block, or has left a closed one. -/
def LoweringState.Ends (s : LoweringState) : Prop := s.function.IsOpen s.current ∨ s.function.IsClosed s.current

/-! ## Expressions -/

/-- Two values are compared as values of the type of one of them. -/
theorem Function.comparisonType_eq (f : Function) (lhs rhs : ValueId) (left right : LoweredType) :
    f.comparisonType lhs rhs left right = left ∨ f.comparisonType lhs rhs left right = right := by
  unfold Function.comparisonType
  dsimp only
  split
  · exact Or.inl rfl
  · split
    · exact Or.inr rfl
    · split
      · exact Or.inr rfl
      · exact Or.inl rfl

namespace Lowering

variable {s : LoweringState} {signatures : List Signature} {gives : Bool} {scope : List String}

theorem lowerConstant_completes (s : LoweringState) (c : Constant) (ty : Ty) :
    Completes (lowerConstant c ty) s fun v s' => s.Within s' ∧ ∃ e, s'.function.IsScalar v e := by
  unfold lowerConstant
  split
  · next typed e _ => exact (constant_completes s typed e).mono fun v s' h => ⟨h.1, e, h.2⟩
  · exact (constant_completes s c c.defaultType).mono fun v s' h => ⟨h.1, _, h.2⟩

/-- Two scalars are made to fit one type and joined by an instruction. -/
theorem joined_completes (hs : s.Able) {lhs rhs : ValueId} {a b : Elementary} (hl : s.function.IsScalar lhs a)
    (hr : s.function.IsScalar rhs b) (e : Elementary) {join : ValueId → ValueId → Operation} {r : Elementary}
    (hop : ∀ l r, (join l r).isTerminator = false)
    (hty : ∀ {f : Function} {u : CompilationUnit} {l l' : ValueId}, f.IsScalar l e → f.IsScalar l' e →
      f.Types u (join l l') (some (.elementary r))) :
    Completes (do
      let left ← coerce lhs (.elementary e)
      let right ← coerce rhs (.elementary e)
      emit (join left right)) s fun v s' => s.Within s' ∧ ∃ e, s'.function.IsScalar v e := by
  refine (coerce_completes hs hl e).bind ?_
  rintro left s₁ ⟨hw₁, hleft⟩
  have hs₁ := hw₁.able hs
  refine (coerce_completes hs₁ (hw₁.scalar hr) e).bind ?_
  rintro right s₂ ⟨hw₂, hright⟩
  refine (emit_completes (hw₂.able hs₁) (hop _ _) (hty (hw₂.scalar hleft) hright)).mono ?_
  rintro v s₃ ⟨hw₃, -, hv⟩
  exact ⟨(hw₁.trans hw₂).trans hw₃, r, hv _ rfl⟩

theorem lowerOperator_completes (hs : s.Able) {lhs rhs : ValueId} {a b : Elementary}
    (hl : s.function.IsScalar lhs a) (hr : s.function.IsScalar rhs b) {op : BinaryOperator} {ty : Ty}
    (hop : (!op.isArithmetic || ty.elementary?.any Elementary.isNumeric) = true) :
    Completes (lowerOperator op ty lhs rhs) s fun v s' => s.Within s' ∧ ∃ e, s'.function.IsScalar v e := by
  unfold BinaryOperator.isArithmetic at hop
  unfold lowerOperator
  split
  · next op' hclass =>
    rw [hclass] at hop
    obtain ⟨e, he, hnum⟩ := (Option.any_eq_true _ _).1 (by simpa using hop)
    refine completes_bind_of_gives (gives_lowerType he) ?_
    exact joined_completes hs hl hr e (fun _ _ => rfl) fun hl hr => .arith hl hr hnum
  · refine completes_bind_of_gives (gives_typeOf_of hl) (completes_bind_of_gives (gives_typeOf_of hr) ?_)
    refine completes_get_bind ?_
    rcases s.function.comparisonType_eq lhs rhs (.elementary a) (.elementary b) with h | h
    · rw [h]
      exact joined_completes hs hl hr a (fun _ _ => rfl) fun hl hr => .cmp hl hr rfl
    · rw [h]
      exact joined_completes hs hl hr b (fun _ _ => rfl) fun hl hr => .cmp hl hr rfl
  · exact joined_completes hs hl hr .bool (fun _ _ => rfl) fun hl hr => .logic hl hr rfl rfl

/-- Values of the types of the parameters are values of the lowered types. -/
theorem valueTypes_of_params {f : Function} {params : List Param} {tys : List LoweredType}
    (hparams : CompilationUnit.ParamsLowered params tys) :
    ∀ {values}, List.Forall₂ (fun v p => ∃ e, p.ty.elementary? = some e ∧ f.IsScalar v e) values params →
      List.Forall₂ (fun v ty => f.valueType? v = some ty) values tys := by
  induction hparams with
  | nil =>
    intro values hv
    cases hv
    exact .nil
  | cons hp _ ih =>
    intro values hv
    cases hv with
    | cons hvp hvs =>
      obtain ⟨e, he, rfl⟩ := hp
      obtain ⟨e', he', hval⟩ := hvp
      obtain rfl := Option.some.inj (he.symm.trans he')
      exact .cons hval (ih hvs)

/-- A function of the module is called with values of its parameter types. -/
theorem finishCall_completes (hs : s.Able) {t : Signature} (hd : s.unit.Declares t) (ht : t.isElementary = true)
    {values : List ValueId} (hv : List.Forall₂ (fun v p => ∃ e, p.ty.elementary? = some e ∧ s.function.IsScalar v e)
      values t.params) :
    Completes (finishCall t.name values) s fun v s' => s.Within s' ∧
      (t.result.isNil = false → ∃ e, s'.function.IsScalar v e) := by
  obtain ⟨f, e, hf, hret, hres, hargs⟩ := hd.elementary ht
  have hnil : t.result.isNil = f.returnType.isNil := by
    rw [hret, Ty.isNil, hres]
    rfl
  refine (emit_completes hs rfl (.call hf (valueTypes_of_params hargs hv))).bind ?_
  rintro v s₁ ⟨hw, rfl, hty⟩
  by_cases hn : f.returnType.isNil = true
  · have hv : s.function.resultValue none = Function.nilValue := rfl
    rw [if_pos hn, if_pos hv]
    exact completes_pure ⟨hw, fun h => by simp [hnil, hn] at h⟩
  · rw [if_neg hn] at hty ⊢
    have hscalar : s₁.function.IsScalar _ e := hty _ (congrArg some hret)
    split
    · exact completes_pure ⟨hw, fun _ => ⟨e, hscalar⟩⟩
    · refine completes_bind_of_gives (gives_typeOf_of hscalar) ?_
      have hcomp : (LoweredType.elementary e).isComposite = false := rfl
      rw [if_neg (by simp [hcomp])]
      exact completes_pure ⟨hw, fun _ => ⟨e, hscalar⟩⟩

/-- A call has a value if the function returns something. -/
theorem call_completes (hs : s.Able) (hp : s.Supports signatures gives scope) {t : Signature} (ht : t ∈ signatures)
    {args : List Expr} (hargs : Completes (lowerArguments t.name t.ty args.length 0 args) s fun values s' =>
      s.Within s' ∧ List.Forall₂ (fun v p => ∃ e, p.ty.elementary? = some e ∧ s'.function.IsScalar v e) values t.params)
    (ty : Ty) (span : Span) :
    Completes (lowerExpr (.call t.name args t.ty false ty span)) s fun v s' => s.Within s' ∧
      (t.result.isNil = false → ∃ e, s'.function.IsScalar v e) := by
  have hdef : t.ty.isDefined = false := rfl
  rw [lowerExpr.eq_def]
  simp only [Bool.false_eq_true, if_false, hdef]
  refine hargs.bind ?_
  rintro values s₁ ⟨hw₁, hv⟩
  have hdecl := (hw₁.supports hp).declares t ht
  refine (finishCall_completes (hw₁.able hs) hdecl (hp.elementary t ht) hv).mono ?_
  rintro v s₂ ⟨hw₂, hres⟩
  exact ⟨hw₁.trans hw₂, hres⟩

mutual

/-- **An elementary expression lowers to a scalar, in the block it starts in.** -/
theorem lowerExpr_completes : (e : Expr) → ∀ {s : LoweringState}, s.Able → s.Supports signatures gives scope →
    e.isElementary signatures scope = true →
    Completes (lowerExpr e) s fun v s' => s.Within s' ∧ ∃ e, s'.function.IsScalar v e
  | .constant c ty _, s, _, _, _ => by
    rw [lowerExpr]
    exact lowerConstant_completes s c ty
  | .ident name _ _, s, hs, hp, he => by
    rw [Expr.isElementary, decide_eq_true_iff] at he
    rw [lowerExpr]
    refine (slotOf_completes hs.toFit (hp.binds name he)).bind ?_
    rintro slot _ ⟨rfl, e, hslot⟩
    exact (load_completes hs hslot).mono fun v s' h => ⟨h.1, e, h.2⟩
  | .binary op left right ty _, s, hs, hp, he => by
    rw [Expr.isElementary, Bool.and_eq_true, Bool.and_eq_true] at he
    obtain ⟨⟨hleft, hright⟩, hop⟩ := he
    rw [lowerExpr]
    refine (lowerExpr_completes left hs hp hleft).bind ?_
    rintro lhs s₁ ⟨hw₁, a, ha⟩
    refine (lowerExpr_completes right (hw₁.able hs) (hw₁.supports hp) hright).bind ?_
    rintro rhs s₂ ⟨hw₂, b, hb⟩
    refine (lowerOperator_completes (hw₂.able (hw₁.able hs)) (hw₂.scalar ha) hb hop).mono ?_
    rintro v s₃ ⟨hw₃, hv⟩
    exact ⟨(hw₁.trans hw₂).trans hw₃, hv⟩
  | .call name [arg] callee true ty _, s, hs, hp, he => by
    simp only [Expr.isElementary, Expr.areElementary, Bool.and_true, Bool.and_eq_true, if_true] at he
    obtain ⟨harg, -, hty⟩ := he
    obtain ⟨e, he⟩ := Option.isSome_iff_exists.1 hty
    rw [lowerExpr]
    refine completes_bind_of_gives (gives_lowerType he) ((lowerExpr_completes arg hs hp harg).bind ?_)
    rintro v s₁ ⟨hw₁, a, ha⟩
    refine (coerce_completes (hw₁.able hs) ha e).mono ?_
    rintro w s₂ ⟨hw₂, hv⟩
    exact ⟨hw₁.trans hw₂, e, hv⟩
  | .call name args callee false ty _, s, hs, hp, he => by
    simp only [Expr.isElementary, Bool.and_eq_true, Bool.false_eq_true, if_false, List.any_eq_true] at he
    obtain ⟨hargs, t, ht, hcall, hres⟩ := he
    obtain ⟨rfl, rfl, hlen⟩ := Signature.isCalled_iff.1 hcall
    refine (call_completes hs hp ht
      (lowerArguments_completes args hs hp hargs (hp.elementary t ht) (List.drop_zero ..) hlen) ty _).mono ?_
    rintro v s' ⟨hw, hv⟩
    exact ⟨hw, hv (by simpa using hres)⟩
  | .call name [] callee true ty _, s, hs, hp, he => by simp [Expr.isElementary] at he
  | .call name (_ :: _ :: _) callee true ty _, s, hs, hp, he => by simp [Expr.isElementary] at he
  | .text _ _ _, _, _, _, he => by simp [Expr.isElementary] at he
  | .choice _ _ _ _, _, _, _, he => by simp [Expr.isElementary] at he

theorem lowerArguments_completes : (args : List Expr) → ∀ {s : LoweringState}, s.Able →
    s.Supports signatures gives scope → Expr.areElementary signatures scope args = true → ∀ {t : Signature},
    t.isElementary = true → ∀ {position : Nat} {params : List Param}, t.params.drop position = params →
    params.length = args.length → ∀ {name : String} {total : Nat},
    Completes (lowerArguments name t.ty total position args) s fun values s' => s.Within s' ∧
      List.Forall₂ (fun v p => ∃ e, p.ty.elementary? = some e ∧ s'.function.IsScalar v e) values params
  | [], s, _, _, _, t, _, position, params, _, hlen, _, _ => by
    obtain rfl := List.eq_nil_of_length_eq_zero hlen
    rw [lowerArguments]
    exact completes_pure ⟨.refl s, .nil⟩
  | arg :: args, s, hs, hp, he, t, ht, position, [], _, hlen, _, _ => by simp at hlen
  | arg :: args, s, hs, hp, he, t, ht, position, p :: params, hdrop, hlen, name, total => by
    rw [Expr.areElementary, Bool.and_eq_true] at he
    have hget : t.params[position]? = some p := by
      have := congrArg (·[0]?) hdrop
      simpa using this
    obtain ⟨e, hpe, -⟩ := Signature.elementary?_of_mem ht (List.mem_of_getElem? hget)
    have hle : (Ty.leaf p.name p.ty).elementary? = some e := hpe
    obtain ⟨-, hsum, -⟩ := Machine.stripLeaf_of_elementary? hle
    have harg : (LoweredType.elementary e).asArgument = .elementary e := rfl
    rw [lowerArguments]
    refine completes_need_bind (Signature.parameter?_of_isElementary ht hget) ?_
    refine completes_bind_of_gives (gives_lowerType hle) ?_
    simp only [hsum, Bool.false_and, Bool.false_eq_true, if_false, harg]
    refine (lowerExpr_completes arg hs hp he.1).bind ?_
    rintro v s₁ ⟨hw₁, a, ha⟩
    refine (coerce_completes (hw₁.able hs) ha e).bind ?_
    rintro w s₂ ⟨hw₂, hw⟩
    have hw₁₂ := hw₁.trans hw₂
    have hdrop' : t.params.drop (position + 1) = params := by rw [← List.drop_drop, hdrop]; rfl
    have hlen' : params.length = args.length := by simpa using hlen
    refine (lowerArguments_completes args (hw₁₂.able hs) (hw₁₂.supports hp) he.2 ht hdrop' hlen').bind ?_
    rintro ws s₃ ⟨hw₃, hws⟩
    exact completes_pure ⟨hw₁₂.trans hw₃, .cons ⟨e, hpe, hw₃.scalar hw⟩ hws⟩

end

theorem lowerCall_completes (args : List Expr) {s : LoweringState} (hs : s.Able)
    (hp : s.Supports signatures gives scope) (hargs : Expr.areElementary signatures scope args = true) {t : Signature}
    (ht : t ∈ signatures) {name : String} {callee : Ty} (hcall : t.isCalled name callee args.length = true) (ty : Ty)
    (span : Span) :
    Completes (lowerExpr (.call name args callee false ty span)) s fun v s' => s.Within s' ∧
      (t.result.isNil = false → ∃ e, s'.function.IsScalar v e) := by
  obtain ⟨rfl, rfl, hlen⟩ := Signature.isCalled_iff.1 hcall
  exact call_completes hs hp ht
    (lowerArguments_completes args hs hp hargs (hp.elementary t ht) (List.drop_zero ..) hlen) ty span

end Lowering

end BlockForm
