import BlockForm.Proofs.ExpressionValues

/-!
# BlockForm.Proofs.Calls — the calls that lowering a function makes

Lowering is a recursion through the syntax of a function, of which a run shows the final state only.  `Lowering.Call`
is a call of one of the functions of this recursion with its arguments; `Call.Makes c s d t` says that the call `c`,
while it runs from the state `s`, makes the call `d` in the state `t`: what stands before `d` in the function has been
run, and has succeeded.  Whether `d` succeeds, and what is left of `c`, plays no part.

* `Call.Makes.keeps`: a call that is made keeps to the conventions if the one that makes it does.
* `Call.Reaches.keeps`: so does every call that is made in the course of it, however deep.
-/

namespace BlockForm

open Action

mutual

/-- Every construction of a value in the statement is of a composite type. -/
def Statement.constructsComposites : Statement → Bool
  | .declare _ _ initial _ => initial.all Expr.constructsComposites
  | .assign _ value _ => value.constructsComposites
  | .give value _ => value.all Expr.constructsComposites
  | .branch condition whenTrue none _ => condition.constructsComposites && whenTrue.constructsComposites
  | .branch condition whenTrue (some whenFalse) _ =>
    condition.constructsComposites && (whenTrue.constructsComposites && whenFalse.constructsComposites)
  | .effect value => value.constructsComposites

def Body.constructsComposites : Body → Bool
  | ⟨statements, _, _⟩ => Statement.allConstructComposites statements

def Statement.allConstructComposites : List Statement → Bool
  | [] => true
  | st :: rest => st.constructsComposites && Statement.allConstructComposites rest

end

namespace Lowering

open LoweringState

variable {s : LoweringState}

/-! ## Statements -/

/-- The first value of a variable of the type is built in its slot. -/
def builtInPlace (ty : Ty) : Expr → Bool
  | .call _ _ callee _ ety _ => callee.isDefined && ety.sameShape ty
  | _ => false

theorem fillInitial_of_not_builtInPlace {ty : Ty} {e : Expr} (h : builtInPlace ty e = false) (slot : ValueId) :
    fillInitial slot ty e = (do
      let v ← lowerExpr e
      store slot v) := by
  cases e with
  | call name args callee explicit ety span =>
    have hplace : (callee.isDefined && ety.sameShape ty) = false := h
    simp [fillInitial, hplace]
  | _ => rfl

theorem assigned_yields {e : Expr} (he : e.constructsComposites = true) (hs : s.Conventional) (slot : ValueId) :
    Yields (do
      let v ← lowerExpr e
      store slot v) s fun _ _ => True :=
  (lowerExpr_yields e he hs).bind fun v _ h _ => (neutral_store slot v).goes h.conventional

theorem fillInitial_yields {e : Expr} (he : e.constructsComposites = true) (hs : s.Conventional) (slot : ValueId)
    (ty : Ty) : Yields (fillInitial slot ty e) s fun _ _ => True := by
  cases hplace : builtInPlace ty e with
  | false =>
    rw [fillInitial_of_not_builtInPlace hplace]
    exact assigned_yields he hs slot
  | true =>
    cases e with
    | call name args callee explicit ety span =>
      have hplace : (callee.isDefined && ety.sameShape ty) = true := hplace
      simp only [fillInitial, hplace, if_true, fill]
      refine ((neutral_prepare slot _).goes hs).bind fun site s₁ h₁ _ => ?_
      exact storeAll_yields args (Bool.and_eq_true_iff.1 he).2 site 0 h₁.conventional
    | _ => cases hplace

/-- A declared variable up to its first value: it has a slot. -/
def enterDeclaration (ty : Ty) : Lowering ValueId := do
  let lowered ← lowerType ty
  alloca lowered

theorem enterDeclaration_yields (hs : s.Conventional) (ty : Ty) :
    Yields (enterDeclaration ty) s fun slot s' => s'.function.IsAddress slot :=
  (lowerType_yields hs ty).bind fun _ _ h _ => (alloca_yields h.conventional).mono fun _ _ hslot => ⟨_, hslot, rfl⟩

theorem lowerReturn_yields {value : Option Expr} (he : value.all Expr.constructsComposites = true)
    (hs : s.Conventional) : Yields (lowerReturn value) s fun _ _ => True := by
  refine yields_get_bind ?_
  split
  · next e slot _ =>
    refine (lowerExpr_yields e he hs).bind fun v s₁ h₁ _ => ?_
    refine ((neutral_store slot v).goes h₁.conventional).bind fun _ s₂ h₂ _ => ?_
    exact (neutral_branchTo _).goes h₂.conventional
  · exact (neutral_branchTo _).goes hs
  · exact (yields_fault (Q := fun _ _ => True)).bind fun _ _ h _ => (neutral_branchTo _).goes h.conventional

/-- A statement with two bodies up to the first: gives the block of the second and the one after both. -/
def enterFork (condition : Expr) : Lowering (BlockId × BlockId) := do
  let c ← lowerExpr condition
  let c ← coerce c (.elementary .bool)
  let thenBlock ← newBlock
  let elseBlock ← newBlock
  let join ← newBlock
  branchOn c thenBlock elseBlock
  startBlock thenBlock
  return (elseBlock, join)

/-- A statement with one body up to it: gives the block after it. -/
def enterArm (condition : Expr) : Lowering BlockId := do
  let c ← lowerExpr condition
  let c ← coerce c (.elementary .bool)
  let thenBlock ← newBlock
  let join ← newBlock
  branchOn c thenBlock join
  startBlock thenBlock
  return join

theorem lowerStatement_fork (condition : Expr) (whenTrue whenFalse : Body) (span : Span) :
    lowerStatement (.branch condition whenTrue (some whenFalse) span) = (do
      let (elseBlock, join) ← enterFork condition
      lowerBody whenTrue
      branchTo join
      startBlock elseBlock
      lowerBody whenFalse
      branchTo join
      startBlock join) := by
  rw [lowerStatement]
  simp only [enterFork, bind_assoc, pure_bind]

theorem lowerStatement_arm (condition : Expr) (whenTrue : Body) (span : Span) :
    lowerStatement (.branch condition whenTrue none span) = (do
      let join ← enterArm condition
      lowerBody whenTrue
      branchTo join
      startBlock join) := by
  rw [lowerStatement]
  simp only [enterArm, bind_assoc, pure_bind]

theorem enterFork_yields {condition : Expr} (hc : Represented condition) (hs : s.Conventional) :
    Yields (enterFork condition) s fun _ _ => True := by
  refine (hc hs).bind fun v s₁ h₁ _ => ((neutral_coerce v _).goes h₁.conventional).bind fun c s₂ h₂ _ => ?_
  refine (neutral_newBlock.goes h₂.conventional).bind fun thenBlock s₃ h₃ _ => ?_
  refine (neutral_newBlock.goes h₃.conventional).bind fun elseBlock s₄ h₄ _ => ?_
  refine (neutral_newBlock.goes h₄.conventional).bind fun join s₅ h₅ _ => ?_
  refine ((neutral_branchOn c thenBlock elseBlock).goes h₅.conventional).bind fun _ s₆ h₆ _ => ?_
  refine ((neutral_startBlock thenBlock).goes h₆.conventional).bind fun _ s₇ h₇ _ => ?_
  exact yields_pure h₇.conventional trivial

theorem enterArm_yields {condition : Expr} (hc : Represented condition) (hs : s.Conventional) :
    Yields (enterArm condition) s fun _ _ => True := by
  refine (hc hs).bind fun v s₁ h₁ _ => ((neutral_coerce v _).goes h₁.conventional).bind fun c s₂ h₂ _ => ?_
  refine (neutral_newBlock.goes h₂.conventional).bind fun thenBlock s₃ h₃ _ => ?_
  refine (neutral_newBlock.goes h₃.conventional).bind fun join s₄ h₄ _ => ?_
  refine ((neutral_branchOn c thenBlock join).goes h₄.conventional).bind fun _ s₅ h₅ _ => ?_
  refine ((neutral_startBlock thenBlock).goes h₅.conventional).bind fun _ s₆ h₆ _ => ?_
  exact yields_pure h₆.conventional trivial

mutual

theorem lowerStatement_yields : (st : Statement) → st.constructsComposites = true → ∀ {s : LoweringState},
    s.Conventional → Yields (lowerStatement st) s fun _ _ => True
  | .declare name ty initial _, he, s, hs => by
    rw [lowerStatement, ← bind_assoc]
    refine (enterDeclaration_yields hs ty).bind fun slot s₁ h₁ hslot => ?_
    cases initial with
    | none => exact yields_define h₁.conventional hslot
    | some e =>
      refine (fillInitial_yields he h₁.conventional slot ty).bind fun _ s₂ h₂ _ => ?_
      exact yields_define h₂.conventional (hslot.grow h₂.grows)
  | .assign name value _, he, s, hs => by
    rw [lowerStatement]
    exact yields_slotOf_bind hs fun slot _ => assigned_yields he hs slot
  | .give value _, he, s, hs => by
    rw [lowerStatement]
    exact lowerReturn_yields he hs
  | .branch condition whenTrue (some whenFalse) _, he, s, hs => by
    obtain ⟨hc, hbodies⟩ := Bool.and_eq_true_iff.1 he
    obtain ⟨ht, hf⟩ := Bool.and_eq_true_iff.1 hbodies
    rw [lowerStatement_fork]
    refine (enterFork_yields (lowerExpr_yields condition hc) hs).bind fun r s₁ h₁ _ => ?_
    refine (lowerBody_yields whenTrue ht h₁.conventional).bind fun _ s₂ h₂ _ => ?_
    refine ((neutral_branchTo r.2).goes h₂.conventional).bind fun _ s₃ h₃ _ => ?_
    refine ((neutral_startBlock r.1).goes h₃.conventional).bind fun _ s₄ h₄ _ => ?_
    refine (lowerBody_yields whenFalse hf h₄.conventional).bind fun _ s₅ h₅ _ => ?_
    refine ((neutral_branchTo r.2).goes h₅.conventional).bind fun _ s₆ h₆ _ => ?_
    exact (neutral_startBlock r.2).goes h₆.conventional
  | .branch condition whenTrue none _, he, s, hs => by
    obtain ⟨hc, ht⟩ := Bool.and_eq_true_iff.1 he
    rw [lowerStatement_arm]
    refine (enterArm_yields (lowerExpr_yields condition hc) hs).bind fun join s₁ h₁ _ => ?_
    refine (lowerBody_yields whenTrue ht h₁.conventional).bind fun _ s₂ h₂ _ => ?_
    refine ((neutral_branchTo join).goes h₂.conventional).bind fun _ s₃ h₃ _ => ?_
    exact (neutral_startBlock join).goes h₃.conventional
  | .effect value, he, s, hs => by
    rw [lowerStatement]
    exact (lowerExpr_yields value he hs).bind fun _ _ h _ => yields_pure h.conventional trivial

theorem lowerBody_yields : (body : Body) → body.constructsComposites = true → ∀ {s : LoweringState},
    s.Conventional → Yields (lowerBody body) s fun _ _ => True
  | ⟨statements, _, _⟩, he, s, hs => by
    rw [lowerBody]
    exact yields_inScope hs (lowerStatements_yields statements he)

theorem lowerStatements_yields : (statements : List Statement) → Statement.allConstructComposites statements = true →
    ∀ {s : LoweringState}, s.Conventional → Yields (lowerStatements statements) s fun _ _ => True
  | [], _, s, hs => by
    rw [lowerStatements]
    exact yields_pure hs trivial
  | st :: rest, he, s, hs => by
    obtain ⟨hst, hrest⟩ := Bool.and_eq_true_iff.1 he
    rw [lowerStatements]
    refine (lowerStatement_yields st hst hs).bind fun _ s₁ h₁ _ => ?_
    refine (neutral_isTerminated.goes h₁.conventional).bind fun terminated s₂ h₂ _ => ?_
    split
    · split
      · exact yields_pure h₂.conventional trivial
      · exact yields_get_bind ((neutral_report _).goes h₂.conventional)
    · exact lowerStatements_yields rest hrest h₂.conventional

end

/-! ## Functions -/

theorem prepareReturn_yields (hs : s.Conventional) : Yields prepareReturn s fun _ _ => True := by
  refine yields_get_bind ?_
  split
  · exact yields_pure hs trivial
  · refine (alloca_yields hs).bind fun slot s₁ h₁ _ => ?_
    exact (neutral_inFunction (.setReturnSlot trivial)).goes h₁.conventional

theorem spillArguments_yields {function : String} (params : List Param) : ∀ {position : Nat} {s : LoweringState},
    s.Conventional → Yields (spillArguments function position params) s fun _ _ => True := by
  induction params with
  | nil => exact fun hs => yields_pure hs trivial
  | cons param params ih =>
    intro position s hs
    refine yields_get_bind (yields_need_bind fun argument _ => yields_typeOf_bind fun ty _ => ?_)
    refine (alloca_yields hs).bind fun slot s₁ h₁ hslot => ?_
    refine ((neutral_store slot argument).goes h₁.conventional).bind fun _ s₂ h₂ _ => ?_
    refine (yields_define h₂.conventional ⟨_, h₂.grows.valueType? hslot, rfl⟩).bind fun _ s₃ h₃ _ => ?_
    exact ih h₃.conventional

theorem finishReturn_yields (hs : s.Conventional) : Yields finishReturn s fun _ _ => True := by
  refine yields_get_bind ?_
  split
  · refine ((neutral_emit _).goes hs).bind fun v s₁ h₁ _ => ?_
    exact (neutral_inFunction (.setReturn _ _ fun _ _ => trivial)).goes h₁.conventional
  · exact (neutral_inFunction (.setReturn _ _ fun _ _ => trivial)).goes hs

theorem lowerFunctionBody_yields {item : FunctionItem} (he : item.body.constructsComposites = true)
    (hs : s.Conventional) : Yields (lowerFunctionBody item) s fun _ _ => True := by
  refine (prepareReturn_yields hs).bind fun _ s₁ h₁ _ => ?_
  refine (spillArguments_yields item.signature.params h₁.conventional).bind fun _ s₂ h₂ _ => ?_
  refine (lowerBody_yields item.body he h₂.conventional).bind fun _ s₃ h₃ _ => yields_get_bind ?_
  refine ((neutral_branchTo s₃.endBlock).goes h₃.conventional).bind fun _ s₄ h₄ _ => ?_
  refine ((neutral_startBlock s₃.endBlock).goes h₄.conventional).bind fun _ s₅ h₅ _ => ?_
  exact finishReturn_yields h₅.conventional

/-! ## Calls -/

/-- A call of one of the functions that lowering is made of. -/
inductive Call where
  /-- `lowerExpr`. -/
  | expr (e : Expr)
  /-- `storeAll`. -/
  | stores (site : FillSite) (index : Nat) (args : List Expr)
  /-- `lowerArguments`. -/
  | arguments (name : String) (callee : Ty) (total position : Nat) (args : List Expr)
  /-- `lowerCases`. -/
  | matchCases (subject : ValueId) (slot : Option ValueId) (join : BlockId) (targets : List CaseTarget)
      (cases : List MatchCase)
  /-- `fillInitial`. -/
  | initial (slot : ValueId) (ty : Ty) (e : Expr)
  /-- `lowerStatement`. -/
  | statement (st : Statement)
  /-- `lowerStatements`. -/
  | statements (statements : List Statement)
  /-- `lowerBody`. -/
  | body (body : Body)
  /-- `lowerFunctionBody`. -/
  | function (item : FunctionItem)

namespace Call

/-- The call, run from `s`, succeeds and ends in `s'`. -/
def Ends (s s' : LoweringState) : Call → Prop
  | .expr e => ∃ v, Gives (lowerExpr e) s v s'
  | .stores site index args => Gives (storeAll site index args) s () s'
  | .arguments name callee total position args => ∃ vs, Gives (lowerArguments name callee total position args) s vs s'
  | .matchCases subject slot join targets cases => Gives (lowerCases subject slot join targets cases) s () s'
  | .initial slot ty e => Gives (fillInitial slot ty e) s () s'
  | .statement st => Gives (lowerStatement st) s () s'
  | .statements sts => Gives (lowerStatements sts) s () s'
  | .body b => Gives (lowerBody b) s () s'
  | .function item => Gives (lowerFunctionBody item) s () s'

/-- Every construction of a value in the code that is lowered by the call is of a composite type. -/
def constructsComposites : Call → Bool
  | .expr e | .initial _ _ e => e.constructsComposites
  | .stores _ _ args | .arguments _ _ _ _ args => Expr.allConstructComposites args
  | .matchCases _ _ _ _ cases => MatchCase.allConstructComposites cases
  | .statement st => st.constructsComposites
  | .statements sts => Statement.allConstructComposites sts
  | .body b => b.constructsComposites
  | .function item => item.body.constructsComposites

/-- The first call, while it runs from the first state, makes the second one in the second state.  There is a rule for
each place in the functions at which one of them is called; the premises are what comes before. -/
inductive Makes : Call → LoweringState → Call → LoweringState → Prop where
  -- expressions
  | left {op : BinaryOperator} {l r : Expr} {ty : Ty} {span : Span} {s : LoweringState} :
      Makes (.expr (.binary op l r ty span)) s (.expr l) s
  | right {op : BinaryOperator} {l r : Expr} {ty : Ty} {span : Span} {s t : LoweringState} {v : ValueId}
      (hl : Gives (lowerExpr l) s v t) : Makes (.expr (.binary op l r ty span)) s (.expr r) t
  | converted {name : String} {arg : Expr} {callee ty : Ty} {span : Span} {s t : LoweringState} {target : LoweredType}
      (hty : Gives (lowerType ty) s target t) : Makes (.expr (.call name [arg] callee true ty span)) s (.expr arg) t
  | constructed {name : String} {args : List Expr} {callee ty : Ty} {span : Span} {s t : LoweringState} {slot : ValueId}
      {site : FillSite} (hdefined : callee.isDefined = true)
      (henter : Gives (enterConstruction args ty) s (slot, site) t) :
      Makes (.expr (.call name args callee false ty span)) s (.stores site 0 args) t
  | called {name : String} {args : List Expr} {callee ty : Ty} {span : Span} {s : LoweringState}
      (hdefined : callee.isDefined = false) :
      Makes (.expr (.call name args callee false ty span)) s (.arguments name callee args.length 0 args) s
  | scrutinee {e : Expr} {cases : List MatchCase} {ty : Ty} {span : Span} {s : LoweringState}
      {indices : List (List Nat)} (hsum : e.ty.isSum = true) (hcov : coverage e.ty [] cases = .ok indices) :
      Makes (.expr (.choice e cases ty span)) s (.expr e) s
  | matched {e : Expr} {cases : List MatchCase} {ty : Ty} {span : Span} {s t : LoweringState}
      {indices : List (List Nat)} {m : MatchSite} (hsum : e.ty.isSum = true)
      (hcov : coverage e.ty [] cases = .ok indices) (henter : Gives (enterMatch e indices ty) s m t) :
      Makes (.expr (.choice e cases ty span)) s (.matchCases m.subject m.slot m.join m.targets cases) t
  -- what they hand on to: the arguments of a construction or a call, and the cases of a match
  | stored {site : FillSite} {index : Nat} {arg : Expr} {args : List Expr} {s : LoweringState} :
      Makes (.stores site index (arg :: args)) s (.expr arg) s
  | stores {site : FillSite} {index : Nat} {arg : Expr} {args : List Expr} {s t t' : LoweringState} {v : ValueId}
      (harg : Gives (lowerExpr arg) s v t) (hstore : Gives (storeArgument site index v) t () t') :
      Makes (.stores site index (arg :: args)) s (.stores site (index + 1) args) t'
  | built {name : String} {callee param : Ty} {total position : Nat} {arg : Expr} {args : List Expr}
      {s t t₁ t₂ : LoweringState} {lowered : LoweredType} {slot : ValueId} {site : FillSite}
      (hparam : callee.parameter? position = some param) (hty : Gives (lowerType param) s lowered t)
      (hsum : (param.isSum && !arg.ty.sameShape param) = true) (hslot : Gives (alloca lowered) t slot t₁)
      (hsite : Gives (prepare slot (.of [arg.ty] param)) t₁ site t₂) :
      Makes (.arguments name callee total position (arg :: args)) s (.expr arg) t₂
  | passed {name : String} {callee param : Ty} {total position : Nat} {arg : Expr} {args : List Expr}
      {s t : LoweringState} {lowered : LoweredType} (hparam : callee.parameter? position = some param)
      (hty : Gives (lowerType param) s lowered t) (hsum : (param.isSum && !arg.ty.sameShape param) = false) :
      Makes (.arguments name callee total position (arg :: args)) s (.expr arg) t
  | arguments {name : String} {callee param : Ty} {total position : Nat} {arg : Expr} {args : List Expr}
      {s t t' : LoweringState} {lowered : LoweredType} {v : ValueId} (hparam : callee.parameter? position = some param)
      (hty : Gives (lowerType param) s lowered t) (harg : Gives (lowerArgument param lowered arg) t v t') :
      Makes (.arguments name callee total position (arg :: args)) s
        (.arguments name callee total (position + 1) args) t'
  | case {subject : ValueId} {slot : Option ValueId} {join : BlockId} {target : CaseTarget} {targets : List CaseTarget}
      {pattern : Option Ty} {binding : Option String} {body : Expr} {symbols : SymbolTable} {span : Span}
      {cases : List MatchCase} {s t t' : LoweringState} (hstart : Gives (startBlock target.block) s () t)
      (hbind : Gives (Site.bindCase subject target.indices binding span) { t with scopes := [] :: t.scopes } () t') :
      Makes (.matchCases subject slot join (target :: targets) (⟨pattern, binding, body, symbols, span⟩ :: cases)) s
        (.expr body) t'
  | cases {subject : ValueId} {slot : Option ValueId} {join : BlockId} {target : CaseTarget} {targets : List CaseTarget}
      {pattern : Option Ty} {binding : Option String} {body : Expr} {symbols : SymbolTable} {span : Span}
      {cases : List MatchCase} {s t t₁ t₂ : LoweringState} (hstart : Gives (startBlock target.block) s () t)
      (hbody : Gives (inScope do
        Site.bindCase subject target.indices binding span
        let v ← lowerExpr body
        Site.storeCase slot v) t () t₁)
      (hjoin : Gives (branchTo join) t₁ () t₂) :
      Makes (.matchCases subject slot join (target :: targets) (⟨pattern, binding, body, symbols, span⟩ :: cases)) s
        (.matchCases subject slot join targets cases) t₂
  -- statements
  | inPlace {slot : ValueId} {ty : Ty} {name : String} {args : List Expr} {callee : Ty} {explicit : Bool} {ety : Ty}
      {span : Span} {s t : LoweringState} {site : FillSite}
      (hplace : builtInPlace ty (.call name args callee explicit ety span) = true)
      (hsite : Gives (prepare slot (.of (args.map Expr.ty) ety)) s site t) :
      Makes (.initial slot ty (.call name args callee explicit ety span)) s (.stores site 0 args) t
  | assigned {slot : ValueId} {ty : Ty} {e : Expr} {s : LoweringState} (hplace : builtInPlace ty e = false) :
      Makes (.initial slot ty e) s (.expr e) s
  | declare {name : String} {ty : Ty} {e : Expr} {span : Span} {s t : LoweringState} {slot : ValueId}
      (hslot : Gives (enterDeclaration ty) s slot t) :
      Makes (.statement (.declare name ty (some e) span)) s (.initial slot ty e) t
  | assign {name : String} {e : Expr} {span : Span} {s : LoweringState} {slot : ValueId}
      (hslot : Gives (slotOf name) s slot s) : Makes (.statement (.assign name e span)) s (.expr e) s
  | give {e : Expr} {span : Span} {s : LoweringState} {slot : ValueId} (hslot : s.function.returnSlot = some slot) :
      Makes (.statement (.give (some e) span)) s (.expr e) s
  | condition {condition : Expr} {whenTrue : Body} {whenFalse : Option Body} {span : Span} {s : LoweringState} :
      Makes (.statement (.branch condition whenTrue whenFalse span)) s (.expr condition) s
  | whenTrue {condition : Expr} {whenTrue whenFalse : Body} {span : Span} {s t : LoweringState}
      {elseBlock join : BlockId} (henter : Gives (enterFork condition) s (elseBlock, join) t) :
      Makes (.statement (.branch condition whenTrue (some whenFalse) span)) s (.body whenTrue) t
  | whenFalse {condition : Expr} {whenTrue whenFalse : Body} {span : Span} {s t t₁ t₂ t₃ : LoweringState}
      {elseBlock join : BlockId} (henter : Gives (enterFork condition) s (elseBlock, join) t)
      (hbody : Gives (lowerBody whenTrue) t () t₁) (hjoin : Gives (branchTo join) t₁ () t₂)
      (hstart : Gives (startBlock elseBlock) t₂ () t₃) :
      Makes (.statement (.branch condition whenTrue (some whenFalse) span)) s (.body whenFalse) t₃
  | onlyTrue {condition : Expr} {whenTrue : Body} {span : Span} {s t : LoweringState} {join : BlockId}
      (henter : Gives (enterArm condition) s join t) :
      Makes (.statement (.branch condition whenTrue none span)) s (.body whenTrue) t
  | effect {e : Expr} {s : LoweringState} : Makes (.statement (.effect e)) s (.expr e) s
  -- bodies
  | body {statements : List Statement} {symbols : SymbolTable} {span : Span} {s : LoweringState} :
      Makes (.body ⟨statements, symbols, span⟩) s (.statements statements) { s with scopes := [] :: s.scopes }
  | first {st : Statement} {rest : List Statement} {s : LoweringState} :
      Makes (.statements (st :: rest)) s (.statement st) s
  | rest {st : Statement} {rest : List Statement} {s t : LoweringState} (hst : Gives (lowerStatement st) s () t)
      (hopen : Gives isTerminated t false t) : Makes (.statements (st :: rest)) s (.statements rest) t
  | function {item : FunctionItem} {s t t' : LoweringState} (hreturn : Gives prepareReturn s () t)
      (hspill : Gives (spillArguments item.signature.name 0 item.signature.params) t () t') :
      Makes (.function item) s (.body item.body) t'

/-- The first call makes the second one, directly or through others. -/
def Reaches (c : Call) (s : LoweringState) (d : Call) (t : LoweringState) : Prop :=
  Relation.ReflTransGen (fun p q : Call × LoweringState => Makes p.1 p.2 q.1 q.2) (c, s) (d, t)

variable {c d d' : Call} {s t t' : LoweringState}

theorem Reaches.refl (c : Call) (s : LoweringState) : c.Reaches s c s := Relation.ReflTransGen.refl

theorem Reaches.tail (h : c.Reaches s d t) (hm : Makes d t d' t') : c.Reaches s d' t' := Relation.ReflTransGen.tail h hm

/-- A call that starts in a state that keeps to the conventions ends in one. -/
theorem Ends.conventional (h : c.Ends t t') (hc : c.constructsComposites = true) (ht : t.Conventional) :
    t'.Conventional := by
  cases c with
  | expr e =>
    obtain ⟨v, h⟩ := h
    exact (lowerExpr_yields e hc ht).conventional h
  | stores site index args => exact (storeAll_yields args hc site index ht).conventional h
  | arguments name callee total position args =>
    obtain ⟨vs, h⟩ := h
    exact (lowerArguments_yields args hc name callee total position ht).conventional h
  | matchCases subject slot join targets cases =>
    exact (lowerCases_yields cases hc subject slot join targets ht).conventional h
  | initial slot ty e => exact (fillInitial_yields hc ht slot ty).conventional h
  | statement st => exact (lowerStatement_yields st hc ht).conventional h
  | statements sts => exact (lowerStatements_yields sts hc ht).conventional h
  | body b => exact (lowerBody_yields b hc ht).conventional h
  | function item => exact (lowerFunctionBody_yields hc ht).conventional h

/-- **A call that is made starts in a state that keeps to the conventions**, if the call that makes it does. -/
theorem Makes.keeps (h : Makes c s d t) (hc : c.constructsComposites = true) (hs : s.Conventional) :
    d.constructsComposites = true ∧ t.Conventional := by
  -- What has been run before the call keeps to the conventions, step by step; and the call lowers a part of the code.
  cases h with
  | left => exact ⟨(Bool.and_eq_true_iff.1 hc).1, hs⟩
  | right hl =>
    obtain ⟨hcl, hcr⟩ := Bool.and_eq_true_iff.1 hc
    exact ⟨hcr, (lowerExpr_yields _ hcl hs).conventional hl⟩
  | @converted _ arg _ _ _ _ _ _ hty =>
    have harg : (arg.constructsComposites && true) = true := hc
    exact ⟨(Bool.and_eq_true_iff.1 harg).1, (lowerType_yields hs _).conventional hty⟩
  | constructed hdefined henter =>
    obtain ⟨hty, hargs⟩ := Bool.and_eq_true_iff.1 hc
    exact ⟨hargs, (enterConstruction_yields hs _ (by simpa [hdefined] using hty)).conventional henter⟩
  | called => exact ⟨(Bool.and_eq_true_iff.1 hc).2, hs⟩
  | scrutinee => exact ⟨(Bool.and_eq_true_iff.1 hc).1, hs⟩
  | matched _ _ henter =>
    obtain ⟨hce, hcases⟩ := Bool.and_eq_true_iff.1 hc
    exact ⟨hcases, (enterMatch_yields (lowerExpr_yields _ hce) hs _ _).conventional henter⟩
  | stored => exact ⟨(Bool.and_eq_true_iff.1 hc).1, hs⟩
  | stores harg hstore =>
    obtain ⟨hcarg, hcargs⟩ := Bool.and_eq_true_iff.1 hc
    have ht := (lowerExpr_yields _ hcarg hs).conventional harg
    exact ⟨hcargs, ((neutral_storeArgument _ _ _).goes ht).conventional hstore⟩
  | built _ hty _ hslot hsite =>
    have ht := (lowerType_yields hs _).conventional hty
    have ht₁ := (alloca_yields ht).conventional hslot
    exact ⟨(Bool.and_eq_true_iff.1 hc).1, ((neutral_prepare _ _).goes ht₁).conventional hsite⟩
  | passed _ hty => exact ⟨(Bool.and_eq_true_iff.1 hc).1, (lowerType_yields hs _).conventional hty⟩
  | arguments _ hty harg =>
    obtain ⟨hcarg, hcargs⟩ := Bool.and_eq_true_iff.1 hc
    have ht := (lowerType_yields hs _).conventional hty
    exact ⟨hcargs, (lowerArgument_yields (lowerExpr_yields _ hcarg) ht).conventional harg⟩
  | case hstart hbind =>
    have ht := ((neutral_startBlock _).goes hs).conventional hstart
    exact ⟨(Bool.and_eq_true_iff.1 hc).1, (bindCase_yields ht.enter _ _ _ _).conventional hbind⟩
  | cases hstart hbody hjoin =>
    obtain ⟨hcbody, hccases⟩ := Bool.and_eq_true_iff.1 hc
    have ht := ((neutral_startBlock _).goes hs).conventional hstart
    have ht₁ := (caseBody_yields (lowerExpr_yields _ hcbody) ht).conventional hbody
    exact ⟨hccases, ((neutral_branchTo _).goes ht₁).conventional hjoin⟩
  | inPlace _ hsite => exact ⟨(Bool.and_eq_true_iff.1 hc).2, ((neutral_prepare _ _).goes hs).conventional hsite⟩
  | assigned => exact ⟨hc, hs⟩
  | declare hslot => exact ⟨hc, (enterDeclaration_yields hs _).conventional hslot⟩
  | assign | give | effect => exact ⟨hc, hs⟩
  | @condition _ _ whenFalse =>
    cases whenFalse with
    | none | some => exact ⟨(Bool.and_eq_true_iff.1 hc).1, hs⟩
  | whenTrue henter =>
    obtain ⟨hcond, hbodies⟩ := Bool.and_eq_true_iff.1 hc
    exact ⟨(Bool.and_eq_true_iff.1 hbodies).1, (enterFork_yields (lowerExpr_yields _ hcond) hs).conventional henter⟩
  | whenFalse henter hbody hjoin hstart =>
    obtain ⟨hcond, hbodies⟩ := Bool.and_eq_true_iff.1 hc
    obtain ⟨hctrue, hcfalse⟩ := Bool.and_eq_true_iff.1 hbodies
    have ht := (enterFork_yields (lowerExpr_yields _ hcond) hs).conventional henter
    have ht₁ := (lowerBody_yields _ hctrue ht).conventional hbody
    have ht₂ := ((neutral_branchTo _).goes ht₁).conventional hjoin
    exact ⟨hcfalse, ((neutral_startBlock _).goes ht₂).conventional hstart⟩
  | onlyTrue henter =>
    obtain ⟨hcond, hctrue⟩ := Bool.and_eq_true_iff.1 hc
    exact ⟨hctrue, (enterArm_yields (lowerExpr_yields _ hcond) hs).conventional henter⟩
  | body => exact ⟨hc, hs.enter⟩
  | first => exact ⟨(Bool.and_eq_true_iff.1 hc).1, hs⟩
  | rest hst =>
    obtain ⟨hcst, hcrest⟩ := Bool.and_eq_true_iff.1 hc
    exact ⟨hcrest, (lowerStatement_yields _ hcst hs).conventional hst⟩
  | function hreturn hspill =>
    have ht := (prepareReturn_yields hs).conventional hreturn
    exact ⟨hc, (spillArguments_yields _ ht).conventional hspill⟩

/-- **So does every call that is made in the course of it.** -/
theorem Reaches.keeps (h : c.Reaches s d t) (hc : c.constructsComposites = true) (hs : s.Conventional) :
    d.constructsComposites = true ∧ t.Conventional := by
  have run : ∀ q : Call × LoweringState, Relation.ReflTransGen (fun p q => Makes p.1 p.2 q.1 q.2) (c, s) q →
      q.1.constructsComposites = true ∧ q.2.Conventional := by
    intro q hq
    induction hq with
    | refl => exact ⟨hc, hs⟩
    | tail _ hmakes ih => exact hmakes.keeps ih.1 ih.2
  exact run (d, t) h

end Call

end Lowering

end BlockForm
