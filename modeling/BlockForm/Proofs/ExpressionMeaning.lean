import BlockForm.Proofs.Expressions
import BlockForm.Proofs.Simulation

/-!
# BlockForm.Proofs.ExpressionMeaning — lowered expressions compute what evaluation gives

The code of a scalar expression, run where every name in scope has its value in its slot, makes the calls that
evaluating the expression makes, changes no cell, and leaves a value that stands for the result.
-/

namespace BlockForm

open Action

variable {V : Type}

/-- Names are looked up scope by scope. -/
theorem findSome?_lookup (name : String) (scopes : List Scope) :
    scopes.findSome? (List.lookup name) = scopes.flatten.lookup name := by
  induction scopes with
  | nil => rfl
  | cons scope scopes ih =>
    rw [List.findSome?_cons, List.flatten_cons, List.lookup_append, ih]
    cases scope.lookup name <;> rfl

/-- The evaluator and the machine agree on operations, on the functions of the unit and on the result. -/
structure Evaluator.Suits (E : Evaluator V) (M : Machine V) (u : CompilationUnit) : Prop where
  meaning : E.meaning = M.meaning
  lawful : M.meaning.Lawful
  callee : ∀ {name f}, u.function? name = some f → ∃ tys result, E.callee? name = some (tys, result) ∧
    f.arguments = tys.map .elementary ∧ f.returnType = .elementary result ∧ (∀ t ∈ tys, t.isDiscrete = true) ∧
    (result ≠ .nil → result.isDiscrete = true)
  result : E.result ≠ .nil → E.result.isDiscrete = true

theorem Evaluator.Suits.of_extends {E : Evaluator V} {M : Machine V} {u u' : CompilationUnit} (h : E.Suits M u)
    (hu : u.Extends u') : E.Suits M u' := by
  refine ⟨h.meaning, h.lawful, fun hf => h.callee ?_, h.result⟩
  rw [CompilationUnit.function?, hu.functions] at hf
  exact hf

namespace Machine

variable {M : Machine V} {E : Evaluator V} {f f' : Function} {c c' : Config V}

/-- Every name in scope has its value in its slot. -/
def Variables (M : Machine V) (f : Function) (c : Config V) (slots : Scope) (env : Environment V) : Prop :=
  List.Forall₂ (fun p q => p.1 = q.1 ∧ M.Holds f c p.2 q.2.1 q.2.2) slots env

theorem Variables.mono {slots : Scope} {env : Environment V} (h : M.Variables f c slots env)
    (hg : f.Grows f') (hF : f.Grows M.function) (ha : c.Agree f.instructions.size c')
    (hcells : c.cells <+: c'.cells) : M.Variables f' c' slots env :=
  h.imp fun _ _ ⟨hn, hh⟩ => ⟨hn, hh.mono hg hF ha hcells⟩

theorem Variables.onward {g g' : Site} {env : Environment V}
    (h : M.Variables g.state.function c g.state.scopes.flatten env) (ho : Site.Onward g g')
    (hp : M.Passes g.state g'.state c c') (hF : g'.state.function.Grows M.function)
    (hcells : c.cells <+: c'.cells) : M.Variables g'.state.function c' g'.state.scopes.flatten env := by
  rw [ho.scopes]
  exact h.mono ho.trace.function_grows (ho.trace.function_grows.trans hF) hp.agree hcells

/-- The variable of a name is the one in the slot of the name. -/
theorem Variables.lookup {slots : Scope} {env : Environment V} (h : M.Variables f c slots env) {name : String}
    {slot : ValueId} (hslot : slots.lookup name = some slot) :
    ∃ t v, env.lookup name = some (t, v) ∧ M.Holds f c slot t v := by
  induction h with
  | nil => cases hslot
  | @cons p q ps qs hpq _ ih =>
    obtain ⟨n, w⟩ := p
    obtain ⟨n', t, v⟩ := q
    obtain ⟨hn, hh⟩ := hpq
    cases hn
    rw [List.lookup_cons] at hslot ⊢
    cases hb : name == n with
    | true =>
      rw [hb] at hslot
      cases hslot
      exact ⟨t, v, rfl, hh⟩
    | false =>
      rw [hb] at hslot
      exact ih hslot

/-- The value stands for the result of an expression, the absent value for none. -/
def Gets (M : Machine V) (f : Function) (c : Config V) (v : ValueId) : Option (Operand V) → Prop
  | none => v = Function.nilValue
  | some o => M.Stands f c v o

/-- What has a type is not absent. -/
theorem Gets.stands {v : ValueId} {o : Option (Operand V)} (h : M.Gets f c v o)
    (hnil : M.function.value? Function.nilValue = some .nil) {ty : LoweredType}
    (hty : M.function.valueType? v = some ty) : ∃ o', o = some o' ∧ M.Stands f c v o' := by
  cases o with
  | some o => exact ⟨o, rfl, h⟩
  | none =>
    have hv : v = Function.nilValue := h
    rw [hv, Function.valueType?, hnil] at hty
    cases hty

theorem coerce_typed {v w : ValueId} {target : LoweredType} {s s' : LoweringState}
    (h : Gives (Lowering.coerce v target) s w s') (hF : s.function.Grows M.function) :
    ∃ ty, M.function.valueType? v = some ty := by
  obtain ⟨ty, hty, -⟩ := coerce_gives h
  exact ⟨ty, hF.valueType? (Function.operandType_eq_ok_iff_valueType?.1 hty)⟩

theorem lowerOperator_typed {op : BinaryOperator} {ty : Ty} {lhs rhs v : ValueId} {s s' : LoweringState}
    (h : Gives (Lowering.lowerOperator op ty lhs rhs) s v s') (hF : s'.function.Grows M.function) :
    (∃ t, M.function.valueType? lhs = some t) ∧ ∃ t, M.function.valueType? rhs = some t := by
  have joined : ∀ {t : LoweredType} {mk : ValueId → ValueId → Operation} {s : LoweringState}, Gives (do
      let left ← Lowering.coerce lhs t
      let right ← Lowering.coerce rhs t
      Lowering.emit (mk left right)) s v s' →
      (∃ t, M.function.valueType? lhs = some t) ∧ ∃ t, M.function.valueType? rhs = some t := by
    intro t mk s h
    simp only [gives_bind] at h
    obtain ⟨left, s₁, h₁, right, s₂, h₂, h₃⟩ := h
    have hF₁ := (coerce_grows h₂).trans ((emit_grows h₃).trans hF)
    exact ⟨coerce_typed h₁ ((coerce_grows h₁).trans hF₁), coerce_typed h₂ hF₁⟩
  unfold Lowering.lowerOperator at h
  cases hcl : op.class with
  | arith a =>
    rw [hcl] at h
    obtain ⟨_, _, -, h⟩ := gives_bind.1 h
    exact joined h
  | cmp a =>
    rw [hcl] at h
    simp only [gives_bind (x := Lowering.typeOf _), gives_get_bind] at h
    obtain ⟨_, _, -, _, _, -, h⟩ := h
    exact joined h
  | logic a =>
    rw [hcl] at h
    exact joined h

/-- **The rule of calls**: the call is an event, and its result stands for the answer. -/
theorem finishCall_passes {name : String} {args : List ValueId} {v : ValueId}
    {s s' : LoweringState} {vs : List V} {result : Elementary} {callee : Function}
    (h : Gives (Lowering.finishCall name args) s v s') (hF : s'.function.Grows M.function) (hc : c.At s)
    (hu : s.unit.function? name = some callee)
    (hret : callee.returnType = .elementary result) (hd : result ≠ .nil → result.isDiscrete = true)
    (hargs : args.mapM (M.scalar c) = some vs) :
    ∃ c', M.Passes s s' c c' ∧ c'.cells = c.cells ∧ c'.calls = c.calls ++ [⟨name, vs⟩] ∧
      M.Gets s'.function c' v
        (if result = .nil then none else some ⟨result, M.meaning.answer c.calls.length name vs, none⟩) := by
  have hexec : M.execute c (.call name args) =
      some (some (.scalar (M.meaning.answer c.calls.length name vs)), c.cells, c.calls ++ [⟨name, vs⟩]) := by
    simp [execute, hargs]
  obtain ⟨r, s₁, h₁, h₂⟩ := gives_bind.1 h
  obtain ⟨ty, htypes, hnone, hsome⟩ := emit_types h₁
  -- The result is not composite: the value is what the instruction gives, or absent.
  have hty : ty = if result = .nil then none else some (.elementary result) := by
    cases htypes with
    | call hcallee =>
      obtain rfl := Option.some.inj (hu.symm.trans hcallee)
      rw [hret]
      by_cases hr : result = .nil <;>
        simp [hr, LoweredType.isNil, LoweredType.elementary, LoweredType.elementary?]
  have hplain : v = r ∧ s' = s₁ := by
    rw [gives_ite] at h₂
    rcases h₂ with ⟨-, h₂⟩ | ⟨hne, h₂⟩
    · obtain ⟨rfl, rfl⟩ := gives_pure.1 h₂
      exact ⟨rfl, rfl⟩
    · simp only [gives_bind (x := Lowering.typeOf _), Lowering.gives_typeOf] at h₂
      obtain ⟨t, _, ⟨ht, rfl⟩, h₂⟩ := h₂
      have hr : result ≠ .nil := by
        intro hr
        exact hne (hnone (by rw [hty, if_pos hr]))
      have ht' := hsome _ (by rw [hty, if_neg hr])
      rw [Function.operandType_eq_ok_iff_valueType?, ht'] at ht
      cases ht
      rw [if_neg (by simp [LoweredType.isComposite, LoweredType.typedef?, LoweredType.elementary])] at h₂
      obtain ⟨rfl, rfl⟩ := gives_pure.1 h₂
      exact ⟨rfl, rfl⟩
  obtain ⟨rfl, rfl⟩ := hplain
  obtain ⟨c', ty', hp, hcells, hcalls, htypes', hnone', hsome'⟩ := emit_passes h₁ hF hc hexec
  have hsame : ty' = ty := Except.ok.inj
    ((Function.resultType_of_types htypes').symm.trans (Function.resultType_of_types htypes))
  rw [hsame, hty] at hnone' hsome'
  refine ⟨c', hp, hcells, hcalls, ?_⟩
  by_cases hr : result = .nil
  · rw [if_pos hr] at hnone' ⊢
    exact hnone' rfl
  · rw [if_neg hr] at hsome' ⊢
    obtain ⟨hm, hvt, hconst, hdat⟩ := hsome' _ rfl
    exact stands_result hm hvt hconst hdat (hd hr)

/-! ## Arguments and expressions -/

open Site in
/-- An argument that is built into a slot is the slot. -/
theorem built_yields {g : Site} (hr : g.Ready) {slot : ValueId} (hs : g.Usable slot) (plan : FillPlan) (arg : Expr) :
    Yields (do
      let site ← Lowering.prepare slot plan
      let v ← Lowering.lowerExpr arg
      Lowering.storeArgument site 0 v) g fun _ _ => True := by
  refine (prepare_yields hr hs plan).bind fun site g₁ h₁ hsite => ?_
  have hr₁ := h₁.ready hr
  refine (lowerExpr_yields arg hr₁).bind fun v g₂ h₂ hv => ?_
  exact storeArgument_yields (h₂.ready hr₁) (h₂.usable hsite) 0 hv

theorem coerced_target {e : Expr} {target : LoweredType} {s s' : LoweringState} {w : ValueId}
    (h : Gives (do
      let v ← Lowering.lowerExpr e
      Lowering.coerce v target) s w s') : s'.function.valueType? w = some target := by
  obtain ⟨v, s₁, -, h₂⟩ := gives_bind.1 h
  exact coerce_target h₂

theorem absent {g : Site} (hr : g.Ready) (hF : g.state.function.Grows M.function) :
    M.function.value? Function.nilValue = some .nil := hF.value? hr.sound.coherent.absent

/-- From every place, the code of the expression makes the calls of its evaluation, changes no cell and leaves the
value. -/
def Computes (E : Evaluator V) (M : Machine V) (e : Expr) : Prop :=
  ∀ {g : Site} {v : ValueId} {s' : LoweringState} {c : Config V} {env : Environment V}, g.Ready →
    E.Suits M g.state.unit → Gives (Lowering.lowerExpr e) g.state v s' → s'.function.Grows M.function →
    c.At g.state → M.Variables g.state.function c g.state.scopes.flatten env →
    ∃ c' o, E.evaluate env e c.calls = some (o, c'.calls) ∧ M.Passes g.state s' c c' ∧ c'.cells = c.cells ∧
      M.Gets s'.function c' v o

/-- The same for arguments, whose values are of the types that the final function gives them. -/
def ComputesAll (E : Evaluator V) (M : Machine V) (args : List Expr) : Prop :=
  ∀ {g : Site} {vs : List ValueId} {s' : LoweringState} {c : Config V} {env : Environment V} {name : String}
    {callee : Ty} {total position : Nat} {tys : List Elementary}, g.Ready → E.Suits M g.state.unit →
    Gives (Lowering.lowerArguments name callee total position args) g.state vs s' → s'.function.Grows M.function →
    c.At g.state → M.Variables g.state.function c g.state.scopes.flatten env →
    List.Forall₂ (fun v t => M.function.valueType? v = some (.elementary t)) vs tys →
    (∀ t ∈ tys, t.isDiscrete = true) →
    ∃ c' ws, E.evaluateAll env tys args c.calls = some (ws, c'.calls) ∧ M.Passes g.state s' c c' ∧
      c'.cells = c.cells ∧ vs.mapM (M.scalar c') = some ws ∧ ∀ v ∈ vs, s'.function.Made v

theorem constant_computes {k : Constant} {ty : Ty} {span : Span} (hk : k.isDiscrete = true)
    (hty : ty.elementary?.all Elementary.isDiscrete = true) : Computes E M (.constant k ty span) := by
  intro g v s' c env hr hS h hF hc hv
  rw [Lowering.lowerExpr] at h
  obtain ⟨hp, hst⟩ := lowerConstant_passes h hk hty hF hc
  exact ⟨c, some _, by rw [Evaluator.evaluate, hS.meaning], hp, rfl, hst⟩

theorem ident_computes (name : String) (ty : Ty) (span : Span) : Computes E M (.ident name ty span) := by
  intro g v s' c env hr hS h hF hc hv
  rw [Lowering.lowerExpr] at h
  simp only [gives_bind (x := Lowering.slotOf _), Lowering.gives_slotOf] at h
  obtain ⟨slot, _, ⟨hslot, rfl⟩, h⟩ := h
  rw [findSome?_lookup] at hslot
  obtain ⟨t, w, hlook, hh⟩ := hv.lookup hslot
  obtain ⟨c', hp, hcells, hcalls, hst⟩ := load_passes h hF hc hh
  exact ⟨c', some _, by simp [Evaluator.evaluate, hlook, hcalls], hp, hcells, hst⟩

/-- The left operand stays what it is while the right one is computed. -/
theorem binary_computes {op : BinaryOperator} {left right : Expr} {ty : Ty} {span : Span}
    (hleft : Computes E M left) (hright : Computes E M right)
    (hop : (match op.class with
      | .arith _ => ty.elementary?.any Elementary.isDiscrete
      | .cmp _ | .logic _ => true) = true) : Computes E M (.binary op left right ty span) := by
  intro g v s' c env hr hS h hF hc hv
  rw [Lowering.lowerExpr] at h
  simp only [gives_bind] at h
  obtain ⟨lhs, s₁, h₁, rhs, s₂, h₂, h₃⟩ := h
  obtain ⟨g₁, rfl, o₁, u₁⟩ := Site.lowerExpr_yields left hr lhs s₁ h₁
  have hr₁ := o₁.ready hr
  obtain ⟨g₂, rfl, o₂, u₂⟩ := Site.lowerExpr_yields right hr₁ rhs s₂ h₂
  have hr₂ := o₂.ready hr₁
  obtain ⟨g₃, rfl, o₃, -⟩ := Site.lowerOperator_yields hr₂ op ty (o₂.usable u₁) u₂ v s' h₃
  have grow₁ := o₁.trace.function_grows
  have grow₂ := o₂.trace.function_grows
  have hF₂ := o₃.trace.function_grows.trans hF
  have hF₁ := grow₂.trans hF₂
  obtain ⟨c₁, l, ev₁, p₁, m₁, q₁⟩ := hleft hr hS h₁ hF₁ hc hv
  have hv₁ := hv.onward o₁ p₁ hF₁ (m₁ ▸ List.prefix_refl _)
  obtain ⟨c₂, r, ev₂, p₂, m₂, q₂⟩ := hright hr₁ (hS.of_extends o₁.trace.unit_extends) h₂ hF₂ p₁.arrived hv₁
  obtain ⟨⟨_, hlt⟩, _, hrt⟩ := lowerOperator_typed h₃ hF
  obtain ⟨l, rfl, st₁⟩ := q₁.stands (absent hr₁ hF₁) hlt
  obtain ⟨r, rfl, st₂⟩ := q₂.stands (absent hr₂ hF₂) hrt
  obtain ⟨c₃, o, hcomb, p₃, m₃, e₃, st₃⟩ := lowerOperator_passes hS.lawful h₃ hop hF₂ hF p₂.arrived
    (st₁.mono grow₂ hF₁ p₂.agree) st₂
  refine ⟨c₃, some o, ?_, (p₁.trans p₂ grow₁).trans p₃ (grow₁.trans grow₂), by rw [m₃, m₂, m₁], st₃⟩
  simp [Evaluator.evaluate, ev₁, ev₂, hS.meaning, hcomb, e₃]

/-- An expression is computed and made one of another type. -/
theorem coerced_passes {e : Expr} (he : Computes E M e) {g : Site} {w : ValueId} {s' : LoweringState}
    {env : Environment V} {t : Elementary} (ht : t.isDiscrete = true) (hr : g.Ready) (hS : E.Suits M g.state.unit)
    (h : Gives (do
      let v ← Lowering.lowerExpr e
      Lowering.coerce v (.elementary t)) g.state w s')
    (hF : s'.function.Grows M.function) (hc : c.At g.state)
    (hv : M.Variables g.state.function c g.state.scopes.flatten env) :
    ∃ c' o, E.evaluate env e c.calls = some (some o, c'.calls) ∧ M.Passes g.state s' c c' ∧ c'.cells = c.cells ∧
      M.Stands s'.function c' w (o.coerce M.meaning t) := by
  obtain ⟨v, s₁, h₁, h₂⟩ := gives_bind.1 h
  obtain ⟨g₁, rfl, o₁, u₁⟩ := Site.lowerExpr_yields e hr v s₁ h₁
  have hF₁ := (coerce_grows h₂).trans hF
  obtain ⟨c₁, o, ev₁, p₁, m₁, q₁⟩ := he hr hS h₁ hF₁ hc hv
  obtain ⟨_, hvt⟩ := coerce_typed h₂ hF₁
  obtain ⟨o, rfl, st₁⟩ := q₁.stands (absent (o₁.ready hr) hF₁) hvt
  obtain ⟨c₂, p₂, m₂, e₂, st₂⟩ := coerce_passes hS.lawful h₂ ht hF p₁.arrived st₁
  exact ⟨c₂, o, by rw [ev₁, e₂], p₁.trans p₂ o₁.trace.function_grows, by rw [m₂, m₁], st₂⟩

theorem conversion_computes {name : String} {arg : Expr} {callee ty : Ty} {span : Span} (harg : Computes E M arg)
    (hty : ty.elementary?.any Elementary.isDiscrete = true) :
    Computes E M (.call name [arg] callee true ty span) := by
  intro g v s' c env hr hS h hF hc hv
  rw [Lowering.lowerExpr] at h
  obtain ⟨t, ht, hd⟩ := (Option.any_eq_true _ _).1 hty
  obtain ⟨target, s₁, h₁, h₂⟩ := gives_bind.1 (by simpa only [if_true] using h)
  obtain ⟨rfl, rfl⟩ := lowerType_elementary ht h₁
  obtain ⟨c₂, o, ev, p, m, st⟩ := coerced_passes harg hd hr hS h₂ hF hc hv
  exact ⟨c₂, some _, by simp [Evaluator.evaluate, ev, ht, hS.meaning], p, m, st⟩

theorem call_computes {name : String} {args : List Expr} {callee ty : Ty} {span : Span}
    (hargs : ComputesAll E M args) (hcallee : callee.isDefined = false) :
    Computes E M (.call name args callee false ty span) := by
  intro g v s' c env hr hS h hF hc hv
  rw [Lowering.lowerExpr.eq_def] at h
  simp only [Bool.false_eq_true, if_false, hcallee, gives_bind] at h
  obtain ⟨values, s₁, h₁, h₂⟩ := h
  obtain ⟨g₁, rfl, o₁, u₁⟩ := Site.lowerArguments_yields args hr name callee args.length 0 values s₁ h₁
  obtain ⟨g₂, rfl, o₂, -⟩ := Site.finishCall_yields (o₁.ready hr) name u₁ v s' h₂
  have hF₁ := o₂.trace.function_grows.trans hF
  -- the check of the call says which types the arguments have
  obtain ⟨r, s₂, hcall, -⟩ := gives_bind.1 h₂
  obtain ⟨_, htypes, -⟩ := emit_types hcall
  cases htypes with
  | @call _ _ target hu hty =>
    obtain ⟨tys, result, hsig, harg, hret, hd, hd'⟩ := (hS.of_extends o₁.trace.unit_extends).callee hu
    rw [harg, List.forall₂_map_right_iff] at hty
    obtain ⟨c₁, ws, ev₁, p₁, m₁, hws, -⟩ := hargs hr hS h₁ hF₁ hc hv (hty.imp fun _ _ h => hF₁.valueType? h) hd
    obtain ⟨c₂, p₂, m₂, e₂, q₂⟩ := finishCall_passes h₂ hF p₁.arrived hu hret hd' hws
    refine ⟨c₂, _, ?_, p₁.trans p₂ o₁.trace.function_grows, by rw [m₂, m₁], q₂⟩
    rw [Evaluator.evaluate.eq_def]
    simp [hsig, ev₁, hS.meaning, e₂]

theorem computesAll_nil : ComputesAll E M [] := by
  intro g vs s' c env name callee total position tys hr hS h hF hc hv hty hd
  rw [Lowering.lowerArguments] at h
  obtain ⟨rfl, rfl⟩ := gives_pure.1 h
  cases hty
  exact ⟨c, [], by simp [Evaluator.evaluateAll], .refl hc, rfl, rfl, by simp⟩

theorem computesAll_cons {arg : Expr} {args : List Expr} (harg : Computes E M arg) (hargs : ComputesAll E M args) :
    ComputesAll E M (arg :: args) := by
  intro g vs s' c env name callee total position tys hr hS h hF hc hv hty hd
  rw [Lowering.lowerArguments] at h
  simp only [gives_need_bind, gives_bind (x := Lowering.lowerType _)] at h
  obtain ⟨param, -, lowered, s₁, h₁, h⟩ := h
  obtain ⟨g₁, rfl, o₁, hk⟩ := Site.lowerType_yields hr param lowered s₁ h₁
  have hr₁ := o₁.ready hr
  obtain ⟨hfun, hcur, -⟩ := lowerType_state h₁
  have hc₁ : c.At g₁.state := by
    rw [Config.At, hfun, hcur]
    exact hc
  have p₁ : M.Passes g.state g₁.state c c := .refl hc₁
  split at h
  · -- a value for a sum is passed by its address, which is of no elementary type
    simp only [gives_bind, gives_pure] at h
    obtain ⟨slot, s₂, h₂, site, s₃, h₃, w, s₄, h₄, _, s₅, h₅, _, _, ⟨rfl, rfl⟩, vs', s₆, h₆, rfl, rfl⟩ := h
    obtain ⟨_, htypes, -, hsome⟩ := emit_types h₂
    obtain ⟨g₂, rfl, o₂, u₂⟩ := Site.alloca_yields hr₁.sound hk.1 slot s₂ h₂
    have hr₂ := o₂.ready hr₁
    obtain ⟨g₅, rfl, o₅, -⟩ := built_yields hr₂ u₂ _ arg () s₅
      (gives_bind.2 ⟨_, _, h₃, gives_bind.2 ⟨_, _, h₄, h₅⟩⟩)
    obtain ⟨g₆, rfl, o₆, -⟩ := Site.lowerArguments_yields args (o₅.ready hr₂) name callee total (position + 1) vs'
      s₆ h₆
    cases htypes with
    | alloca =>
      have hslot := ((o₅.trans o₆).trace.function_grows.trans hF).valueType? (hsome _ rfl)
      cases hty with
      | cons ht =>
        have hp := congrArg LoweredType.isPointer (Option.some.inj (hslot.symm.trans ht))
        cases hp
  · rw [← bind_assoc] at h
    simp only [gives_bind (x := _ >>= _), gives_bind (x := Lowering.lowerArguments _ _ _ _ _), gives_pure] at h
    obtain ⟨w, s₃, h₃, vs', s₄, h₄, rfl, rfl⟩ := h
    obtain ⟨g₃, rfl, o₃, u₃⟩ := Site.coerced_yields hr₁ arg lowered.asArgument w s₃ h₃
    have hr₃ := o₃.ready hr₁
    obtain ⟨g₄, rfl, o₄, -⟩ := Site.lowerArguments_yields args hr₃ name callee total (position + 1) vs' s₄ h₄
    have grow₃ := o₃.trace.function_grows
    have grow₄ := o₄.trace.function_grows
    have hF₃ := grow₄.trans hF
    cases hty with
    | @cons _ t _ ts ht hts =>
      have htarget := (hF₃.valueType? (coerced_target h₃)).symm.trans ht
      rw [Option.some.inj htarget] at h₃
      have hS₁ := hS.of_extends o₁.trace.unit_extends
      have hv₁ := hv.onward o₁ p₁ (grow₃.trans hF₃) (List.prefix_refl _)
      obtain ⟨c₃, o, ev₃, p₃, m₃, st₃⟩ :=
        coerced_passes harg (hd t (List.mem_cons_self ..)) hr₁ hS₁ h₃ hF₃ hc₁ hv₁
      have hv₃ := hv₁.onward o₃ p₃ hF₃ (m₃ ▸ List.prefix_refl _)
      obtain ⟨c₄, ws, ev₄, p₄, m₄, hws, hmade⟩ := hargs hr₃ (hS₁.of_extends o₃.trace.unit_extends) h₄ hF p₃.arrived
        hv₃ hts fun t ht => hd t (List.mem_cons_of_mem _ ht)
      have st₄ := st₃.mono grow₄ hF₃ p₄.agree
      have grow₁ := o₁.trace.function_grows
      refine ⟨c₄, (o.coerce M.meaning t).value :: ws, by simp [Evaluator.evaluateAll, ev₃, ev₄, hS.meaning], ?_,
        by rw [m₄, m₃], by simp [st₄.scalar, hws], by simpa using ⟨st₄.made, hmade⟩⟩
      exact (p₁.trans p₃ grow₁).trans p₄ (grow₁.trans grow₃)

mutual

/-- **The code of a scalar expression computes its value.** -/
theorem lowerExpr_passes : (e : Expr) → e.isScalar = true → Computes E M e
  | .constant k ty _, he => by
    simp only [Expr.isScalar, Bool.and_eq_true] at he
    exact constant_computes he.1 he.2
  | .ident name ty span, _ => ident_computes name ty span
  | .binary op left right ty _, he => by
    simp only [Expr.isScalar, Bool.and_eq_true] at he
    exact binary_computes (lowerExpr_passes left he.1.1) (lowerExpr_passes right he.1.2) he.2
  | .call name [arg] callee true ty _, he => by
    simp only [Expr.isScalar, Bool.and_eq_true] at he
    exact conversion_computes (lowerExpr_passes arg he.1) he.2
  | .call name args callee false ty _, he => by
    simp only [Expr.isScalar, Bool.and_eq_true, Bool.not_eq_true'] at he
    exact call_computes (lowerArguments_passes args he.2) he.1
  | .call _ [] _ true _ _, he => by simp [Expr.isScalar] at he
  | .call _ (_ :: _ :: _) _ true _ _, he => by simp [Expr.isScalar] at he
  | .text _ _ _, he => by simp [Expr.isScalar] at he
  | .choice _ _ _ _, he => by simp [Expr.isScalar] at he

theorem lowerArguments_passes : (args : List Expr) → Expr.areScalar args = true → ComputesAll E M args
  | [], _ => computesAll_nil
  | arg :: args, he => by
    simp only [Expr.areScalar, Bool.and_eq_true] at he
    exact computesAll_cons (lowerExpr_passes arg he.1) (lowerArguments_passes args he.2)

end

end Machine

end BlockForm
