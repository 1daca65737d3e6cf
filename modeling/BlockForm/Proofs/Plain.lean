import BlockForm.Lowering.Program
import BlockForm.Proofs.Interning

/-!
# BlockForm.Proofs.Plain — nothing but the last step looks at the verify option

`Plain r allowed x`: the step `x` does the same from `r s` as from `s`, up to `r`, and its errors are of the class
`allowed`, none of which has a failed verification in it.  With `r` the change of the verify option, this holds of both
passes, whether they succeed or not.  Steps on a function or on the unit make no user errors, and look for no parameter.
-/

namespace BlockForm

/-- The fault of a unit that the verifier rejects. -/
def Fault.isVerification : Fault → Bool
  | verification _ _ => true
  | _ => false

/-- The fault of an argument for which the callee has no parameter. -/
def Fault.isUnknownParameter : Fault → Bool
  | unknownParameter _ _ _ => true
  | _ => false

/-- A fault that a step on a function or on the unit may have. -/
def Fault.isOfStep (f : Fault) : Bool := !f.isVerification && !f.isUnknownParameter

/-- The errors that may come before the verifier, from few to many. -/
inductive ErrorClass where
  /-- The faults of steps. -/
  | step
  /-- All faults but a failed verification. -/
  | fault
  /-- These, and one mistake of the user. -/
  | mistake
  deriving DecidableEq

/-- The error is in the class. -/
def Error.isOrdinary (allowed : ErrorClass) : Error → Bool
  | internal fault => fault.isOfStep || (!fault.isVerification && allowed ≠ .step)
  | user _ _ => allowed = .mistake
  | io _ | config _ | failed _ _ => false

theorem Error.isOrdinary_internal {allowed : ErrorClass} {f : Fault} (h : f.isOfStep = true) :
    (internal f).isOrdinary allowed = true := by
  rw [isOrdinary, h]
  rfl

/-- Without user errors, an ordinary error is a fault. -/
theorem Error.isInternal_of_isOrdinary {e : Error} (h : e.isOrdinary .fault = true) : e.isInternal = true := by
  cases e with
  | internal f => rw [isInternal]
  | io | config | user | failed => cases h

/-- An ordinary error is a fault or one mistake of the user. -/
theorem Error.isOrdinary_cases {e : Error} (h : e.isOrdinary .mistake = true) :
    e.isInternal = true ∨ ∃ mistake span, e = user mistake span := by
  cases e with
  | internal f => exact Or.inl (by rw [isInternal])
  | user mistake span => exact Or.inr ⟨mistake, span, rfl⟩
  | io | config | failed => cases h

theorem Error.isOrdinary_of_isInternal {e : Error} (hi : e.isInternal = true) (h : e.isOrdinary .mistake = true) :
    e.isOrdinary .fault = true := by
  cases e with
  | internal f => exact h
  | user mistake span =>
    rw [isInternal] at hi
    cases hi
  | io | config | failed => cases h

namespace Action

variable {σ α β : Type} {r : σ → σ} {allowed : ErrorClass}

/-- The step does the same before and after the change `r` of the state, and its errors are ordinary. -/
structure Plain (r : σ → σ) (allowed : ErrorClass) (x : Action σ α) : Prop where
  blind : ∀ s, x (r s) = ⟨(x s).result, r (x s).state, (x s).log⟩
  error : ∀ {s e}, (x s).result = .error e → e.isOrdinary allowed = true

theorem plain_pure (a : α) : Plain r allowed (pure a : Action σ α) := by
  refine ⟨fun _ => rfl, ?_⟩
  intro s e h
  cases h

theorem Plain.bind {x : Action σ α} {f : α → Action σ β} (hx : Plain r allowed x) (hf : ∀ a, Plain r allowed (f a)) :
    Plain r allowed (x >>= f) := by
  constructor
  · intro s
    show Action.bind x f (r s) = ⟨(Action.bind x f s).result, r (Action.bind x f s).state, (Action.bind x f s).log⟩
    have hb := hx.blind s
    unfold Action.bind
    rw [hb]
    rcases hxs : x s with ⟨_ | a, t, log⟩
    · rfl
    · simp only [(hf a).blind t]
  · intro s e h
    rcases fails_bind.1 ⟨h, rfl⟩ with hfail | ⟨a, t, -, hfail⟩
    · exact hx.error hfail.1
    · exact (hf a).error hfail.1

/-- A step may look at what `r` does not change. -/
theorem plain_get_bind {f : σ → Action σ β} (hr : ∀ s, f (r s) = f s) (hf : ∀ s, Plain r allowed (f s)) :
    Plain r allowed (get >>= f) := by
  constructor
  · intro s
    show Action.bind get f (r s) =
      ⟨(Action.bind get f s).result, r (Action.bind get f s).state, (Action.bind get f s).log⟩
    simp only [Action.bind, get, hr, (hf s).blind s]
  · intro s e h
    have h' : (Action.bind get f s).result = .error e := h
    exact (hf s).error (by simpa [Action.bind, get] using h')

theorem plain_modify {f : σ → σ} (hf : ∀ s, f (r s) = r (f s)) : Plain r allowed (modify f) := by
  refine ⟨fun s => by simp only [modify, hf], ?_⟩
  intro s e h
  cases h

theorem plain_report (e : Event) : Plain r allowed (report e) := by
  refine ⟨fun _ => rfl, ?_⟩
  intro s e h
  cases h

theorem plain_fail {e : Error} (he : e.isOrdinary allowed = true) : Plain r allowed (fail e : Action σ α) := by
  refine ⟨fun _ => rfl, ?_⟩
  intro s e' h
  cases h
  exact he

theorem plain_fault {f : Fault} (hf : (Error.internal f).isOrdinary allowed = true) :
    Plain r allowed (fault f : Action σ α) := by
  refine ⟨fun _ => rfl, ?_⟩
  intro s e h
  cases h
  exact hf

theorem plain_check {x : Except Fault α} (hx : ∀ f, x = .error f → f.isOfStep = true) :
    Plain r allowed (check x) := by
  cases x with
  | ok a => exact plain_pure a
  | error f => exact plain_fault (Error.isOrdinary_internal (hx f rfl))

theorem plain_need (o : Option α) {f : Fault} (hf : (Error.internal f).isOrdinary allowed = true) :
    Plain r allowed (need o f) := by
  cases o with
  | some a => exact plain_pure a
  | none => exact plain_fault hf

theorem plain_handle (kind : HandleKind) (i : Nat) : Plain r allowed (handle kind i) := by
  unfold handle
  split
  · exact plain_pure _
  · exact plain_fail rfl

theorem plain_mapM {f : α → Action σ β} {as : List α} (hf : ∀ a ∈ as, Plain r allowed (f a)) :
    Plain r allowed (as.mapM f) := by
  induction as with
  | nil =>
    rw [List.mapM_nil]
    exact plain_pure _
  | cons a as ih =>
    rw [List.mapM_cons]
    refine (hf a (List.mem_cons_self ..)).bind fun b => ?_
    exact (ih fun a' ha' => hf a' (List.mem_cons_of_mem _ ha')).bind fun bs => plain_pure _

end Action

/-! ## Checks -/

/-- The check fails with a fault of a step. -/
def Calm {α : Type} (x : Except Fault α) : Prop := ∀ f, x = .error f → f.isOfStep = true

theorem calm_ok {α : Type} (a : α) : Calm (.ok a) := nofun

theorem calm_error {α : Type} {f : Fault} (h : f.isOfStep = true) : Calm (.error f : Except Fault α) := by
  rintro _ ⟨⟩
  exact h

theorem Calm.bind {α β : Type} {x : Except Fault α} {k : α → Except Fault β} (hx : Calm x) (hk : ∀ a, Calm (k a)) :
    Calm (x >>= k) := by
  cases x with
  | error f => exact calm_error (hx f rfl)
  | ok a => exact hk a

namespace Function

variable {f : Function} {u : CompilationUnit} {allowed : ErrorClass}

theorem calm_operandType (v : ValueId) : Calm (f.operandType v) := by
  unfold operandType
  split
  · exact calm_error rfl
  · split
    · exact calm_ok _
    · exact calm_error rfl

theorem calm_compositeOperand (mnemonic : String) (v : ValueId) : Calm (f.compositeOperand u mnemonic v) := by
  unfold compositeOperand
  refine (calm_operandType v).bind fun ty => ?_
  dsimp only
  split
  · exact calm_ok _
  · exact calm_error rfl

theorem calm_unionOperand (mnemonic : String) (v : ValueId) : Calm (f.unionOperand u mnemonic v) := by
  unfold unionOperand
  refine (calm_compositeOperand mnemonic v).bind fun t => ?_
  split
  · exact calm_ok _
  · exact calm_error rfl

theorem calm_memberPointer (t : TypeDef) (index : Nat) : Calm (f.memberPointer t index) := by
  unfold memberPointer
  split
  · exact calm_ok _
  · exact calm_error rfl

theorem calm_checkArguments (callee : String) (args : List ValueId) :
    ∀ tys, Calm (f.checkArguments u callee args tys) := by
  induction args with
  | nil =>
    intro tys
    cases tys <;> exact calm_ok _
  | cons arg args ih =>
    intro tys
    cases tys with
    | nil => exact calm_ok _
    | cons ty tys =>
      rw [checkArguments]
      refine (calm_operandType arg).bind fun t => ?_
      split
      · exact ih tys
      · exact calm_error rfl

theorem calm_resultType (op : Operation) : Calm (f.resultType u op) := by
  cases op with
  | alloca ty count =>
    simp only [resultType]
    split
    · exact calm_error rfl
    · exact calm_ok _
  | read memory =>
    refine (calm_operandType memory).bind fun ty => ?_
    split
    · exact calm_ok _
    · exact calm_error rfl
  | write memory value =>
    refine (calm_operandType memory).bind fun _ => (calm_operandType value).bind fun _ => ?_
    split
    · exact calm_ok _
    · exact calm_error rfl
  | objMemberAt object index =>
    refine (calm_compositeOperand _ object).bind fun t => ?_
    split
    · exact calm_error rfl
    · exact (calm_memberPointer t index).bind fun _ => calm_ok _
  | unionMemberAt target index =>
    exact (calm_unionOperand _ target).bind fun t => (calm_memberPointer t index).bind fun _ => calm_ok _
  | setUnionIdx target index =>
    refine (calm_unionOperand _ target).bind fun _ => (calm_operandType index).bind fun _ => ?_
    split
    · exact calm_ok _
    · exact calm_error rfl
  | getUnionIdx target => exact (calm_unionOperand _ target).bind fun _ => calm_ok _
  | convert value target =>
    refine (calm_operandType value).bind fun _ => ?_
    split
    · exact calm_ok _
    · exact calm_error rfl
  | call name args =>
    simp only [resultType]
    split
    · exact calm_error rfl
    · split
      · exact calm_error rfl
      · exact (calm_checkArguments name args _).bind fun _ => calm_ok _
  | arith op left right | cmp op left right | logic op left right =>
    refine (calm_operandType left).bind fun _ => (calm_operandType right).bind fun _ => ?_
    split
    · exact calm_ok _
    · exact calm_error rfl
  | give value =>
    cases value with
    | none =>
      simp only [resultType]
      split
      · exact calm_ok _
      · exact calm_error rfl
    | some value =>
      refine (calm_operandType value).bind fun _ => ?_
      split
      · exact calm_ok _
      · exact calm_error rfl

theorem calm_openBlock (b : BlockId) : Calm (f.openBlock b) := by
  unfold openBlock
  split
  · exact calm_error rfl
  · split
    · exact calm_error rfl
    · exact calm_ok _

theorem calm_checkLabel (v : ValueId) : Calm (f.checkLabel v) := by
  unfold checkLabel
  split
  · exact calm_ok _
  · exact calm_error rfl

theorem calm_checkExit (e : Exit) : Calm (f.checkExit e) := by
  cases e with
  | branch target => exact calm_checkLabel target
  | condBranch condition taken otherwise =>
    refine (calm_operandType condition).bind fun _ => ?_
    split
    · exact (calm_checkLabel taken).bind fun _ => calm_checkLabel otherwise
    · exact calm_error rfl
  | give id => exact calm_ok _
  | unreachable => exact calm_ok _

/-! ## Building steps -/

open Action

theorem plain_change (change : Function → Function) : Plain id allowed (Action.modify change) :=
  plain_modify fun _ => rfl

theorem plain_bindName (name : String) (object : Object) : Plain id allowed (bindName name object) := by
  refine ⟨fun _ => rfl, ?_⟩
  intro f e h
  unfold bindName NameTable.bind at h
  dsimp only at h
  split at h
  · cases h
    rfl
  · cases h

theorem plain_pushValue (v : Value) : Plain id allowed (pushValue v) :=
  plain_get_bind (fun _ => rfl) fun _ => (plain_handle _ _).bind fun _ =>
    (plain_change _).bind fun _ => plain_pure _

theorem plain_freshVariable : Plain id allowed freshVariable := by
  refine ⟨fun _ => rfl, ?_⟩
  intro f e h
  cases h

theorem plain_freshLabel : Plain id allowed freshLabel := by
  refine ⟨fun _ => rfl, ?_⟩
  intro f e h
  cases h

theorem plain_pushArguments (tys : List LoweredType) : ∀ position, Plain id allowed (pushArguments position tys) := by
  induction tys with
  | nil => exact fun _ => plain_pure _
  | cons ty tys ih =>
    intro position
    have one : Plain id allowed (pushArgument position ty) :=
      plain_freshVariable.bind fun id => (plain_bindName id _).bind fun _ => (plain_pushValue _).bind fun _ =>
        plain_change _
    exact one.bind fun _ => ih (position + 1)

theorem plain_newBlock : Plain id allowed newBlock := by
  refine plain_get_bind (fun _ => rfl) fun f => ?_
  split
  · exact plain_fault rfl
  · exact (plain_handle _ _).bind fun _ => plain_freshLabel.bind fun _ => (plain_bindName _ _).bind fun _ =>
      (plain_pushValue _).bind fun _ => (plain_change _).bind fun _ => plain_pure _

theorem plain_set (f : Function) : Plain id allowed (Action.set f) := by
  refine ⟨fun _ => rfl, ?_⟩
  intro s e h
  cases h

theorem plain_appendBlock (b : BlockId) : Plain id allowed (appendBlock b) := by
  refine plain_get_bind (fun _ => rfl) fun f => ?_
  split
  · exact plain_fault rfl
  · split
    · exact plain_fault rfl
    · exact plain_set _

theorem plain_labelOf (b : BlockId) : Plain id allowed (labelOf b) := by
  refine plain_get_bind (fun _ => rfl) fun f => ?_
  split
  · exact plain_pure _
  · exact plain_fault rfl

theorem plain_literal (i : GlobalId) (g : Global) : Plain id allowed (literal i g) := by
  refine plain_get_bind (fun _ => rfl) fun f => ?_
  split
  · exact plain_pure _
  · exact (plain_pushValue _).bind fun _ => (plain_change _).bind fun _ => plain_pure _

theorem plain_updateBlock (b : BlockId) (change : Block → Block) : Plain id allowed (updateBlock b change) :=
  plain_get_bind (fun _ => rfl) fun _ => (plain_check (calm_openBlock b)).bind fun _ => plain_set _

theorem plain_newInstruction (op : Operation) (ty : Option LoweredType) : Plain id allowed (newInstruction op ty) := by
  refine plain_get_bind (fun _ => rfl) fun f => (plain_handle _ _).bind fun i => ?_
  cases ty with
  | none => exact (plain_pure _).bind fun _ => (plain_change _).bind fun _ => plain_pure _
  | some ty =>
    exact plain_freshVariable.bind fun _ => (plain_bindName _ _).bind fun _ => (plain_pushValue _).bind fun _ =>
      (plain_change _).bind fun _ => plain_pure _

theorem plain_pushInstruction (u : CompilationUnit) (b : BlockId) (op : Operation) :
    Plain id allowed (pushInstruction u b op) := by
  unfold pushInstruction
  split
  · exact plain_fault rfl
  · refine plain_get_bind (fun _ => rfl) fun f => (plain_check (calm_openBlock b)).bind fun _ => ?_
    refine (plain_check (calm_resultType op)).bind fun ty => (plain_newInstruction op ty).bind fun _ => ?_
    exact plain_get_bind (fun _ => rfl) fun _ => (plain_report _).bind fun _ => (plain_updateBlock b _).bind fun _ =>
      plain_pure _

theorem plain_setExit (b : BlockId) (e : Exit) : Plain id allowed (setExit b e) :=
  plain_get_bind (fun _ => rfl) fun _ => (plain_check (calm_checkExit e)).bind fun _ => plain_updateBlock b _

theorem plain_setReturn (u : CompilationUnit) (b : BlockId) (value : Option ValueId) :
    Plain id allowed (setReturn u b value) :=
  plain_get_bind (fun _ => rfl) fun _ => (plain_check (calm_openBlock b)).bind fun _ =>
    (plain_check (calm_resultType _)).bind fun _ => (plain_newInstruction _ _).bind fun _ => plain_setExit b _

theorem plain_openBody : Plain id allowed openBody :=
  plain_newBlock.bind fun entry => (plain_appendBlock entry).bind fun _ => plain_newBlock.bind fun b =>
    (plain_labelOf b).bind fun _ => (plain_change _).bind fun _ => plain_pure _

end Function

/-! ## Interning -/

namespace CompilationUnit

open Action

variable {b : Bool} {allowed : ErrorClass}

/-- The unit with the verify option set. -/
def withVerify (b : Bool) (u : CompilationUnit) : CompilationUnit :=
  { u with options := { u.options with verify := b } }

theorem plain_bindName (name : String) (object : Object) : Plain (withVerify b) allowed (bindName name object) := by
  refine ⟨fun _ => rfl, ?_⟩
  intro u e h
  unfold bindName NameTable.bind at h
  dsimp only at h
  split at h
  · cases h
    rfl
  · cases h

theorem plain_addTypeDef (key : String) (t : TypeDef) : Plain (withVerify b) allowed (addTypeDef key t) := by
  refine plain_get_bind (fun _ => rfl) fun u => ?_
  split
  · exact plain_fault rfl
  · exact (plain_handle _ _).bind fun id => (plain_bindName _ _).bind fun _ => (plain_report _).bind fun _ =>
      Plain.bind (plain_modify fun _ => rfl) fun _ => plain_pure _

theorem plain_internLiteral (content : String) : Plain (withVerify b) allowed (internLiteral content) := by
  refine plain_get_bind (fun _ => rfl) fun u => ?_
  split
  · exact plain_handle _ _
  · exact (plain_handle _ _).bind fun id => (plain_bindName _ _).bind fun _ => (plain_report _).bind fun _ =>
      Plain.bind (plain_modify fun _ => rfl) fun _ => plain_pure _

/-- Putting the state back with a function in it is a change of the state. -/
theorem addFunction_eq (f : Function) :
    addFunction f = (do
      let u ← Action.get
      match u.functions.indexOf? f.name with
      | some i =>
        Action.modify fun u => { u with functions := u.functions.insert f.name f }
        Action.handle .function i
      | none =>
        let id ← Action.handle .function u.functions.size
        bindName f.name (.function id)
        Action.modify fun u => { u with functions := u.functions.insert f.name f }
        return id) := by
  funext u
  unfold addFunction
  show Action.bind Action.get _ u = Action.bind Action.get _ u
  simp only [Action.bind, Action.get]
  cases u.functions.indexOf? f.name <;> rfl

theorem plain_addFunction (f : Function) : Plain (withVerify b) allowed (addFunction f) := by
  rw [addFunction_eq]
  refine plain_get_bind (fun _ => rfl) fun u => ?_
  split
  · exact Plain.bind (plain_modify fun _ => rfl) fun _ => plain_handle _ _
  · exact (plain_handle _ _).bind fun id => (plain_bindName _ _).bind fun _ =>
      Plain.bind (plain_modify fun _ => rfl) fun _ => plain_pure _

theorem plain_lowerType (ty : Ty) : Plain (withVerify b) allowed (lowerType ty) := by
  induction ty using members_induction with
  | step ty ih =>
    rw [lowerType]
    split
    · exact plain_pure _
    · dsimp only
      split
      · refine plain_get_bind (fun _ => rfl) fun u => ?_
        split
        · exact plain_pure _
        · refine (plain_mapM fun m _ => ?_).bind fun _ => (plain_addTypeDef _ _).bind fun _ => plain_pure _
          exact (ih m.1 m.2).bind fun _ => plain_pure _
      · exact plain_fault rfl

end CompilationUnit

namespace Function

variable {b : Bool} {u : CompilationUnit}

theorem checkArguments_withVerify (f : Function) (callee : String) (args : List ValueId) :
    ∀ tys, f.checkArguments (u.withVerify b) callee args tys = f.checkArguments u callee args tys := by
  induction args with
  | nil =>
    intro tys
    cases tys <;> rfl
  | cons arg args ih =>
    intro tys
    cases tys with
    | nil => rfl
    | cons ty tys =>
      rw [checkArguments, checkArguments]
      simp only [ih]
      rfl

theorem resultType_withVerify (f : Function) (op : Operation) :
    f.resultType (u.withVerify b) op = f.resultType u op := by
  cases op with
  | call name args =>
    simp only [resultType, checkArguments_withVerify]
    rfl
  | give value => cases value <;> rfl
  | _ => rfl

theorem pushInstruction_withVerify (c : BlockId) (op : Operation) :
    pushInstruction (u.withVerify b) c op = pushInstruction u c op := by
  simp only [pushInstruction, resultType_withVerify]

theorem setReturn_withVerify (c : BlockId) (value : Option ValueId) :
    setReturn (u.withVerify b) c value = setReturn u c value := by
  simp only [setReturn, resultType_withVerify]

end Function

end BlockForm
