import Mathlib.Data.List.Forall2
import Mathlib.Logic.Relator
import BlockForm.Lowering.Program
import BlockForm.Proofs.Action
import BlockForm.Proofs.Shapes

/-!
# BlockForm.Proofs.Renaming — programs with other local names and positions

`Module.Renamed m m'`: the modules are the same up to the names of parameters, variables and payloads, the places in the
source, and the recorded scopes.  The names of one function go over into those of the other by a relation `R` that is
one-to-one; an injective renaming is such a relation.

Lowering two such programs is compared step by step.  `Lowering.Agree R x y`: from states that differ in the names of
their scopes only, `x` and `y` both fail, or both succeed with the same result and go on in such states.  This module
has the rules for that notion and the steps that look at no program; `slotOf` is the only one to look at a name, and
finds the same slot in both (`agree_slotOf`).
-/

namespace BlockForm

open Action

/-! ## Programs -/

/-- The types of functions differ in the names of parameters at most. -/
structure Ty.SameParameters (a b : Ty) : Prop where
  isDefined : a.isDefined = b.isDefined
  parameter? : ∀ i, (a.parameter? i).map Ty.stripLeaf = (b.parameter? i).map Ty.stripLeaf

mutual

/-- The second expression is the first with other local names, places and scopes. -/
inductive Expr.Renamed (R : String → String → Prop) : Expr → Expr → Prop where
  | constant (c : Constant) (ty : Ty) (span span' : Span) :
      Expr.Renamed R (.constant c ty span) (.constant c ty span')
  | text (content : String) (ty : Ty) (span span' : Span) :
      Expr.Renamed R (.text content ty span) (.text content ty span')
  | ident {name name' : String} (h : R name name') (ty : Ty) (span span' : Span) :
      Expr.Renamed R (.ident name ty span) (.ident name' ty span')
  | binary (op : BinaryOperator) {left left' right right' : Expr} (hl : Expr.Renamed R left left')
      (hr : Expr.Renamed R right right') (ty : Ty) (span span' : Span) :
      Expr.Renamed R (.binary op left right ty span) (.binary op left' right' ty span')
  | call (name : String) {args args' : List Expr} (hargs : List.Forall₂ (Expr.Renamed R) args args')
      {callee callee' : Ty} (hcallee : callee.SameParameters callee') (explicit : Bool) (ty : Ty) (span span' : Span) :
      Expr.Renamed R (.call name args callee explicit ty span) (.call name args' callee' explicit ty span')
  | choice {scrutinee scrutinee' : Expr} (hs : Expr.Renamed R scrutinee scrutinee') {cases cases' : List MatchCase}
      (hcases : List.Forall₂ (MatchCase.Renamed R) cases cases') (ty : Ty) (span span' : Span) :
      Expr.Renamed R (.choice scrutinee cases ty span) (.choice scrutinee' cases' ty span')

/-- The second case is the first with other local names, places and scopes. -/
inductive MatchCase.Renamed (R : String → String → Prop) : MatchCase → MatchCase → Prop where
  | mk (pattern : Option Ty) {binding binding' : Option String} (hbinding : Option.Rel R binding binding')
      {body body' : Expr} (hbody : Expr.Renamed R body body') (symbols symbols' : SymbolTable) (span span' : Span) :
      MatchCase.Renamed R ⟨pattern, binding, body, symbols, span⟩ ⟨pattern, binding', body', symbols', span'⟩

end

mutual

/-- The second statement is the first with other local names, places and scopes. -/
inductive Statement.Renamed (R : String → String → Prop) : Statement → Statement → Prop where
  | declare {name name' : String} (h : R name name') (ty : Ty) {initial initial' : Option Expr}
      (hinitial : Option.Rel (Expr.Renamed R) initial initial') (span span' : Span) :
      Statement.Renamed R (.declare name ty initial span) (.declare name' ty initial' span')
  | assign {name name' : String} (h : R name name') {value value' : Expr} (hvalue : Expr.Renamed R value value')
      (span span' : Span) : Statement.Renamed R (.assign name value span) (.assign name' value' span')
  | give {value value' : Option Expr} (hvalue : Option.Rel (Expr.Renamed R) value value') (span span' : Span) :
      Statement.Renamed R (.give value span) (.give value' span')
  | branch {condition condition' : Expr} (hc : Expr.Renamed R condition condition') {whenTrue whenTrue' : Body}
      (ht : Body.Renamed R whenTrue whenTrue') {whenFalse whenFalse' : Option Body}
      (hf : Option.Rel (Body.Renamed R) whenFalse whenFalse') (span span' : Span) :
      Statement.Renamed R (.branch condition whenTrue whenFalse span) (.branch condition' whenTrue' whenFalse' span')
  | effect {value value' : Expr} (hvalue : Expr.Renamed R value value') :
      Statement.Renamed R (.effect value) (.effect value')

/-- The second body is the first with other local names, places and scopes. -/
inductive Body.Renamed (R : String → String → Prop) : Body → Body → Prop where
  | mk {statements statements' : List Statement} (h : List.Forall₂ (Statement.Renamed R) statements statements')
      (symbols symbols' : SymbolTable) (span span' : Span) :
      Body.Renamed R ⟨statements, symbols, span⟩ ⟨statements', symbols', span'⟩

end

/-- The signatures are the same, the names of parameters going over by `R`. -/
structure Signature.Renamed (R : String → String → Prop) (s s' : Signature) : Prop where
  name : s.name = s'.name
  params : List.Forall₂ (fun p p' => R p.name p'.name ∧ p.ty = p'.ty) s.params s'.params
  returnType : s.returnType = s'.returnType

/-- The second function is the first with other local names, places and scopes: the names go over by a relation that is
one-to-one. -/
def FunctionItem.Renamed (f f' : FunctionItem) : Prop :=
  ∃ R : String → String → Prop, Relator.BiUnique R ∧ f.signature.Renamed R f'.signature ∧ f.body.Renamed R f'.body

/-- The second item is the first with other local names, places and scopes. -/
inductive Item.Renamed : Item → Item → Prop where
  | function {f f' : FunctionItem} (h : f.Renamed f') : Item.Renamed (.function f) (.function f')
  | foreign {s s' : Signature} (h : s.Renamed (fun _ _ => True) s') : Item.Renamed (.foreign s) (.foreign s')
  | type (name : String) (ty : Ty) (span span' : Span) : Item.Renamed (.type ⟨name, ty, span⟩) (.type ⟨name, ty, span'⟩)

/-- The second module is the first with other local names, places and scopes, function by function. -/
structure Module.Renamed (m m' : Module) : Prop where
  name : m.name = m'.name
  items : List.Forall₂ Item.Renamed m.items m'.items

variable {R : String → String → Prop}

/-- An injective renaming is one-to-one. -/
theorem biUnique_of_injective {rename : String → String} (h : Function.Injective rename) :
    Relator.BiUnique fun a b => rename a = b :=
  ⟨fun _ _ _ ha hb => h (ha.trans hb.symm), fun _ _ _ hb hc => hb.symm.trans hc⟩

theorem Expr.Renamed.ty {e e' : Expr} (h : e.Renamed R e') : e.ty = e'.ty := by
  cases h <;> rfl

theorem Expr.map_ty_of_renamed {es es' : List Expr} (h : List.Forall₂ (Expr.Renamed R) es es') :
    es.map Expr.ty = es'.map Expr.ty := by
  induction h with
  | nil => rfl
  | cons he _ ih => rw [List.map_cons, List.map_cons, he.ty, ih]

/-! ## Names around types -/

theorem Ty.sameShape_congr (a : Ty) {b c : Ty} (h : b.stripLeaf = c.stripLeaf) : a.sameShape b = a.sameShape c := by
  rw [← sameShape_stripLeaf, h, sameShape_stripLeaf]

theorem CompilationUnit.lowerType_congr {a b : Ty} (h : a.stripLeaf = b.stripLeaf) : lowerType a = lowerType b := by
  have hstrip : ∀ ty : Ty, lowerType ty = lowerType ty.stripLeaf := by
    intro ty
    rw [lowerType_eq, lowerType_eq ty.stripLeaf]
    simp only [Ty.elementary?_stripLeaf, Ty.isComposite_stripLeaf, Ty.members_stripLeaf, Ty.stripLeaf_stripLeaf,
      typedefOf_stripLeaf ty]
  rw [hstrip, h, ← hstrip]

/-- A plan depends on the names around a type in the texts of faults at most. -/
theorem FillPlan.of_congr (args : List Ty) {a b : Ty} (h : a.stripLeaf = b.stripLeaf) :
    FillPlan.of args a = FillPlan.of args b ∨
      ∃ f g, FillPlan.of args a = ⟨[], .impossible f⟩ ∧ FillPlan.of args b = ⟨[], .impossible g⟩ := by
  have hcopy : isCopy args a = isCopy args b := by
    unfold isCopy
    split
    · exact Ty.sameShape_congr _ h
    · rfl
  have hsum : a.isSum = b.isSum := by rw [← Ty.isSum_stripLeaf, h, Ty.isSum_stripLeaf]
  have hmembers : a.members = b.members := by rw [← Ty.members_stripLeaf, h, Ty.members_stripLeaf]
  have hcomposite : a.isComposite = b.isComposite := by
    rw [← Ty.isComposite_stripLeaf, h, Ty.isComposite_stripLeaf]
  have hfind : a.members.findIdx? (builds args) = b.members.findIdx? (builds args) := by rw [hmembers]
  rw [FillPlan.of, FillPlan.of, hcopy, hsum, hcomposite]
  by_cases hc : isCopy args b
  · rw [if_pos hc, if_pos hc]
    exact Or.inl rfl
  rw [if_neg hc, if_neg hc]
  by_cases hs : b.isSum
  · rw [if_pos hs, if_pos hs]
    split
    · next i hi =>
      split
      · next j hj =>
        obtain rfl : i = j := Option.some.inj ((hi.symm.trans hfind).trans hj)
        left
        simp only [hmembers, List.get_eq_getElem]
      · next hj => cases (hi.symm.trans hfind).trans hj
    · next hi =>
      split
      · next j hj => cases (hi.symm.trans hfind).trans hj
      · exact Or.inr ⟨_, _, rfl, rfl⟩
  rw [if_neg hs, if_neg hs, hmembers]
  split
  · split
    · exact Or.inl rfl
    · exact Or.inr ⟨_, _, rfl, rfl⟩
  · split
    · exact Or.inl rfl
    · exact Or.inr ⟨_, _, rfl, rfl⟩

/-- Callers see the names of parameters in the type of a function only, and there around the types of the
parameters. -/
theorem Signature.Renamed.sameParameters {s s' : Signature} (h : s.Renamed R s') : s.ty.SameParameters s'.ty := by
  obtain ⟨name, params, returnType, span⟩ := s
  obtain ⟨name', params', returnType', span'⟩ := s'
  have hparams : List.Forall₂ (fun p p' => R p.name p'.name ∧ p.ty = p'.ty) params params' := h.params
  have hstrip : ∀ {ps ps' : List Param}, List.Forall₂ (fun p p' => R p.name p'.name ∧ p.ty = p'.ty) ps ps' →
      (ps.map fun p => Ty.leaf p.name p.ty).map Ty.stripLeaf =
        (ps'.map fun p => Ty.leaf p.name p.ty).map Ty.stripLeaf := by
    intro ps ps' hps
    induction hps with
    | nil => rfl
    | cons hp _ ih => simp only [List.map_cons, ih, Ty.stripLeaf, hp.2]
  refine ⟨rfl, fun i => ?_⟩
  cases hparams with
  | nil => rfl
  | @cons p p' ps ps' hp hps =>
    cases hps with
    | nil =>
      have hnil : (Ty.leaf p.name p.ty).isNil = (Ty.leaf p'.name p'.ty).isNil := by
        show p.ty.isNil = p'.ty.isNil
        rw [hp.2]
      simp only [Signature.ty, Ty.parameter?, Ty.stripLeaf, hnil]
      split
      · simp only [Option.map_some, Ty.stripLeaf, hp.2]
      · rfl
    | cons hq hps =>
      show Option.map Ty.stripLeaf (_[i]?) = Option.map Ty.stripLeaf (_[i]?)
      rw [← List.getElem?_map, ← List.getElem?_map, hstrip (.cons hp (.cons hq hps))]

/-! ## Two runs -/

/-- Both steps fail, or both succeed with the same result and leave states related by `P`. -/
inductive Outcome.Agrees {σ α : Type} (P : σ → σ → Prop) (o o' : Outcome σ α) : Prop where
  | succeed {a : α} (h : o.result = .ok a) (h' : o'.result = .ok a) (hs : P o.state o'.state)
  | fail {e e' : Error} (h : o.result = .error e) (h' : o'.result = .error e')

/-- The scopes have the same slots, under names that go over by `R`. -/
def Scope.Renamed (R : String → String → Prop) (a b : Scope) : Prop :=
  List.Forall₂ (fun p q => R p.1 q.1 ∧ p.2 = q.2) a b

/-- The states differ in the names of their scopes only. -/
inductive LoweringState.Renamed (R : String → String → Prop) : LoweringState → LoweringState → Prop where
  | mk (u : CompilationUnit) (f : Function) (current endBlock : BlockId) (scopes scopes' : List Scope)
      (h : List.Forall₂ (Scope.Renamed R) scopes scopes') :
      LoweringState.Renamed R ⟨u, f, current, endBlock, scopes⟩ ⟨u, f, current, endBlock, scopes'⟩

/-- From states that differ in names only, both steps fail, or both succeed with the same result and leave such
states. -/
def Lowering.Agree {α : Type} (R : String → String → Prop) (x y : Lowering α) : Prop :=
  ∀ s t : LoweringState, s.Renamed R t → (x s).Agrees (LoweringState.Renamed R) (y t)

theorem LoweringState.Renamed.unit {s t : LoweringState} (h : s.Renamed R t) : s.unit = t.unit := by
  cases h
  rfl

theorem LoweringState.Renamed.function {s t : LoweringState} (h : s.Renamed R t) : s.function = t.function := by
  cases h
  rfl

theorem LoweringState.Renamed.enterScope {s t : LoweringState} (h : s.Renamed R t) :
    LoweringState.Renamed R { s with scopes := [] :: s.scopes } { t with scopes := [] :: t.scopes } := by
  obtain ⟨u, f, current, endBlock, scopes, scopes', h⟩ := h
  exact .mk u f current endBlock _ _ (.cons .nil h)

theorem LoweringState.Renamed.leaveScope {s t : LoweringState} (h : s.Renamed R t) :
    LoweringState.Renamed R { s with scopes := s.scopes.tail } { t with scopes := t.scopes.tail } := by
  obtain ⟨u, f, current, endBlock, scopes, scopes', h⟩ := h
  cases h with
  | nil => exact .mk u f current endBlock [] [] .nil
  | cons _ h => exact .mk u f current endBlock _ _ h

/-- Names that go together stand for the same slot. -/
theorem Scope.Renamed.lookup_eq (hR : Relator.BiUnique R) {a b : Scope} (h : Scope.Renamed R a b) {name name' : String}
    (hn : R name name') : a.lookup name = b.lookup name' := by
  induction h with
  | nil => rfl
  | @cons p q a b hpq _ ih =>
    obtain ⟨p, slot⟩ := p
    obtain ⟨q, slot'⟩ := q
    obtain ⟨hpq, rfl⟩ : R p q ∧ slot = slot' := hpq
    have hiff : name = p ↔ name' = q := Relator.rel_eq hR hn hpq
    rw [List.lookup_cons, List.lookup_cons, ih]
    by_cases hname : name = p
    · rw [beq_iff_eq.2 hname, beq_iff_eq.2 (hiff.1 hname)]
    · rw [beq_eq_false_iff_ne.2 hname, beq_eq_false_iff_ne.2 fun hname' => hname (hiff.2 hname')]

theorem LoweringState.Renamed.slot_eq (hR : Relator.BiUnique R) {s t : LoweringState} (h : s.Renamed R t)
    {name name' : String} (hn : R name name') :
    s.scopes.findSome? (List.lookup name) = t.scopes.findSome? (List.lookup name') := by
  obtain ⟨u, f, current, endBlock, scopes, scopes', h⟩ := h
  show scopes.findSome? (List.lookup name) = scopes'.findSome? (List.lookup name')
  induction h with
  | nil => rfl
  | cons hscope _ ih => rw [List.findSome?_cons, List.findSome?_cons, hscope.lookup_eq hR hn, ih]

namespace Lowering

variable {α β : Type}

theorem agree_pure (a : α) : Agree R (pure a) (pure a) := fun _ _ h => .succeed rfl rfl h

theorem agree_fail (e e' : Error) : Agree R (Action.fail e : Lowering α) (Action.fail e') := fun _ _ _ => .fail rfl rfl

theorem agree_fault (e e' : Fault) : Agree R (Action.fault e : Lowering α) (Action.fault e') :=
  fun _ _ _ => .fail rfl rfl

theorem agree_report (e e' : Event) : Agree R (Action.report e) (Action.report e') := fun _ _ h => .succeed rfl rfl h

theorem Agree.bind {x y : Lowering α} {k l : α → Lowering β} (hx : Agree R x y) (hk : ∀ a, Agree R (k a) (l a)) :
    Agree R (x >>= k) (y >>= l) := by
  intro s t h
  show (Action.bind x k s).Agrees _ (Action.bind y l t)
  have hxy := hx s t h
  unfold Action.bind
  generalize x s = o at hxy
  generalize y t = o' at hxy
  obtain ⟨result, s', log⟩ := o
  obtain ⟨result', t', log'⟩ := o'
  cases hxy with
  | succeed ha hb hst =>
    cases ha
    cases hb
    rcases hk _ _ _ hst with ⟨hc, hd, hst'⟩ | ⟨he, he'⟩
    · exact .succeed hc hd hst'
    · exact .fail he he'
  | fail he he' =>
    cases he
    cases he'
    exact .fail rfl rfl

/-- A step that looks at the state. -/
theorem agree_get_bind {k l : LoweringState → Lowering β} (h : ∀ {s t}, s.Renamed R t → Agree R (k s) (l t)) :
    Agree R (Action.get >>= k) (Action.get >>= l) := by
  intro s t hst
  rcases h hst s t hst with ⟨hc, hd, hst'⟩ | ⟨he, he'⟩
  · exact .succeed hc hd hst'
  · exact .fail he he'

/-- A step that looks at the state, but not at its scopes. -/
theorem agree_look_bind {k : LoweringState → Lowering β} (hk : ∀ s scopes, k { s with scopes := scopes } = k s)
    (h : ∀ s, Agree R (k s) (k s)) : Agree R (Action.get >>= k) (Action.get >>= k) := by
  refine agree_get_bind ?_
  rintro _ _ ⟨u, f, current, endBlock, scopes, scopes', -⟩
  have hsame : k ⟨u, f, current, endBlock, scopes'⟩ = k ⟨u, f, current, endBlock, scopes⟩ :=
    hk ⟨u, f, current, endBlock, scopes⟩ scopes'
  rw [hsame]
  exact h _

theorem agree_check (r : Except Fault α) : Agree R (Action.check r) (Action.check r) := by
  cases r with
  | ok a => exact agree_pure a
  | error e => exact agree_fault e e

theorem agree_need (o : Option α) (e e' : Fault) : Agree R (Action.need o e) (Action.need o e') := by
  cases o with
  | some a => exact agree_pure a
  | none => exact agree_fault e e'

/-- What must be there is there in both runs, the same up to `g`. -/
theorem agree_need_bind {γ : Type} {g : α → γ} {o o' : Option α} (ho : o.map g = o'.map g) {e e' : Fault}
    {k l : α → Lowering β} (hk : ∀ a b, g a = g b → Agree R (k a) (l b)) :
    Agree R (Action.need o e >>= k) (Action.need o' e' >>= l) := by
  cases o with
  | none =>
    obtain rfl := Option.map_eq_none_iff.1 ho.symm
    exact fun _ _ _ => .fail rfl rfl
  | some a =>
    obtain ⟨b, rfl, hb⟩ := Option.map_eq_some_iff.1 ho.symm
    show Agree R (pure a >>= k) (pure b >>= l)
    rw [pure_bind, pure_bind]
    exact hk a b hb.symm

theorem agree_inUnit (x : CompilationUnit.Interning α) : Agree R (inUnit x) (inUnit x) := by
  rintro _ _ ⟨u, f, current, endBlock, scopes, scopes', h⟩
  unfold inUnit
  cases hx : (x u).result with
  | ok a => exact .succeed hx hx (.mk _ _ _ _ _ _ h)
  | error e => exact .fail hx hx

theorem agree_inFunction (x : Building α) : Agree R (inFunction x) (inFunction x) := by
  rintro _ _ ⟨u, f, current, endBlock, scopes, scopes', h⟩
  unfold inFunction
  cases hx : (x f).result with
  | ok a => exact .succeed hx hx (.mk _ _ _ _ _ _ h)
  | error e => exact .fail hx hx

theorem agree_emit (op : Operation) : Agree R (emit op) (emit op) := by
  rintro _ _ ⟨u, f, current, endBlock, scopes, scopes', h⟩
  unfold emit
  cases hx : (Function.pushInstruction u current op f).result with
  | ok a => exact .succeed hx hx (.mk _ _ _ _ _ _ h)
  | error e => exact .fail hx hx

theorem agree_inScope {x y : Lowering α} (h : Agree R x y) : Agree R (inScope x) (inScope y) := by
  intro s t hst
  rcases h _ _ hst.enterScope with ⟨ha, hb, hst'⟩ | ⟨he, he'⟩
  · exact .succeed ha hb hst'.leaveScope
  · exact .fail he he'

theorem agree_define {name name' : String} (hn : R name name') (slot : ValueId) :
    Agree R (define name slot) (define name' slot) := by
  rintro _ _ ⟨u, f, current, endBlock, scopes, scopes', h⟩
  refine .succeed rfl rfl ?_
  cases h with
  | nil => exact .mk u f current endBlock _ _ .nil
  | cons hscope h => exact .mk u f current endBlock _ _ (.cons (.cons ⟨hn, rfl⟩ hscope) h)

/-- **A name is looked up with the same result.** -/
theorem agree_slotOf (hR : Relator.BiUnique R) {name name' : String} (hn : R name name') :
    Agree R (slotOf name) (slotOf name') := by
  refine agree_get_bind fun {s t} hst => ?_
  rw [hst.slot_eq hR hn]
  exact agree_need _ _ _

/-! ## Steps that look at no name -/

theorem agree_functionName : Agree R functionName functionName :=
  agree_look_bind (fun _ _ => rfl) fun _ => agree_pure _

theorem agree_lowerType (ty : Ty) : Agree R (lowerType ty) (lowerType ty) := agree_inUnit _

theorem agree_typeOf (v : ValueId) : Agree R (typeOf v) (typeOf v) :=
  agree_look_bind (fun _ _ => rfl) fun _ => agree_check _

theorem agree_constant (c : Constant) (e : Elementary) : Agree R (constant c e) (constant c e) := agree_inFunction _

theorem agree_newBlock : Agree R newBlock newBlock := agree_inFunction _

theorem agree_isTerminated : Agree R isTerminated isTerminated :=
  agree_look_bind (fun _ _ => rfl) fun _ => agree_pure _

theorem agree_leave (exit : Exit) : Agree R (leave exit) (leave exit) :=
  agree_look_bind (fun _ _ => rfl) fun _ => agree_inFunction _

theorem agree_startBlock (b : BlockId) : Agree R (startBlock b) (startBlock b) := by
  refine (agree_inFunction _).bind fun _ => ?_
  rintro _ _ ⟨u, f, current, endBlock, scopes, scopes', h⟩
  exact .succeed rfl rfl (.mk u f b endBlock scopes scopes' h)

theorem agree_branchTo (b : BlockId) : Agree R (branchTo b) (branchTo b) := by
  refine agree_isTerminated.bind fun terminated => ?_
  split
  · exact agree_pure ()
  · exact (agree_inFunction _).bind fun target => agree_leave _

theorem agree_branchOn (condition : ValueId) (taken otherwise : BlockId) :
    Agree R (branchOn condition taken otherwise) (branchOn condition taken otherwise) :=
  (agree_inFunction _).bind fun _ => (agree_inFunction _).bind fun _ => agree_leave _

theorem agree_alloca (ty : LoweredType) : Agree R (alloca ty) (alloca ty) := agree_emit _

theorem agree_coerce (v : ValueId) (target : LoweredType) : Agree R (coerce v target) (coerce v target) := by
  refine (agree_typeOf v).bind fun ty => ?_
  split
  · exact agree_pure v
  · refine agree_look_bind (fun _ _ => rfl) fun s => ?_
    split
    · exact agree_constant _ _
    · split
      · exact agree_emit _
      · exact agree_fault _ _

theorem agree_store (slot v : ValueId) : Agree R (store slot v) (store slot v) := by
  refine (agree_typeOf slot).bind fun slotTy => (agree_typeOf v).bind fun ty => ?_
  split
  · exact (agree_emit _).bind fun _ => (agree_emit _).bind fun _ => agree_pure ()
  · exact (agree_coerce v _).bind fun _ => (agree_emit _).bind fun _ => agree_pure ()

theorem agree_load (slot : ValueId) : Agree R (load slot) (load slot) := by
  refine (agree_typeOf slot).bind fun ty => ?_
  split
  · exact agree_pure slot
  · exact agree_emit _

end Lowering

end BlockForm
