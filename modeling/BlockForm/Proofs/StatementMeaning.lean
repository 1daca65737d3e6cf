import BlockForm.Proofs.Memory
import BlockForm.Proofs.Statements

/-!
# BlockForm.Proofs.StatementMeaning — lowered statements do what evaluation does

`Follows` ties a moment of the run to a place of lowering and to the variables of evaluation.  The code of a statement
takes it to the place after the statement, or, when evaluation returns, to the start of the end block with the
returned value in its slot (`Outcome`).  An arm that returns never comes to the join, whatever is lowered there.
-/

namespace BlockForm

open Action

variable {V : Type}

/-- The moment at the start of a block. -/
def Config.goes (c : Config V) (b : BlockId) : Config V := { c with block := b, position := 0 }

namespace Machine

variable {M : Machine V} {E : Evaluator V} {s s' : LoweringState} {c c' : Config V} {env : Environment V}

/-- The run stands where lowering does, and memory is as evaluation has it. -/
structure Follows (E : Evaluator V) (M : Machine V) (s : LoweringState) (c : Config V) (env : Environment V) :
    Prop where
  arrived : c.At s
  isOpen : s.function.IsOpen s.current
  tracks : Tracks E M s c env

/-- The result slot holds the returned value; there is no slot if there is no value. -/
def Leaves (M : Machine V) (c : Config V) : (slot : Option ValueId) → (value : Option V) → Prop
  | some r, some v => ∃ n, M.datum c r = some (.cell n) ∧ c.cells[n]? = some v
  | none, none => True
  | _, _ => False

/-- What statements lowered from `s` to `s'` have come to. -/
def Outcome (E : Evaluator V) (M : Machine V) (s s' : LoweringState) (c : Config V) : Flow V → Prop
  | .next env => Follows E M s' c env
  | .returned value => c.block = s.endBlock ∧ c.position = 0 ∧ M.Leaves c s.function.returnSlot value

/-- From every place, the code of the statement does what its evaluation does. -/
def StatementRuns (E : Evaluator V) (M : Machine V) (st : Statement) : Prop :=
  ∀ {g : Site} {c : Config V} {env : Environment V} {a : Unit} {s' : LoweringState}, g.Ready →
    E.Suits M g.state.unit → Gives (Lowering.lowerStatement st) g.state a s' → s'.function.Grows M.function →
    Follows E M g.state c env →
    ∃ flow c', E.execute st env c.calls = some (flow, c'.calls) ∧ M.Runs c c' ∧ Outcome E M g.state s' c' flow

/-- The same for a body. -/
def BodyRuns (E : Evaluator V) (M : Machine V) (body : Body) : Prop :=
  ∀ {g : Site} {c : Config V} {env : Environment V} {a : Unit} {s' : LoweringState}, g.Ready →
    E.Suits M g.state.unit → Gives (Lowering.lowerBody body) g.state a s' → s'.function.Grows M.function →
    Follows E M g.state c env →
    ∃ flow c', E.executeBody body env c.calls = some (flow, c'.calls) ∧ M.Runs c c' ∧ Outcome E M g.state s' c' flow

/-- The same for a list of statements. -/
def StatementsRun (E : Evaluator V) (M : Machine V) (statements : List Statement) : Prop :=
  ∀ {g : Site} {c : Config V} {env : Environment V} {a : Unit} {s' : LoweringState}, g.Ready →
    E.Suits M g.state.unit → Gives (Lowering.lowerStatements statements) g.state a s' →
    s'.function.Grows M.function → Follows E M g.state c env →
    ∃ flow c', E.executeAll statements env c.calls = some (flow, c'.calls) ∧ M.Runs c c' ∧
      Outcome E M g.state s' c' flow

/-! ## Exits -/

theorem leave_grows {e : Exit} {a : Unit} (h : Gives (Lowering.leave e) s a s') : s.function.Grows s'.function := by
  obtain ⟨f, hf, rfl⟩ := Lowering.gives_leave.1 h
  obtain ⟨-, x, ⟨hx, hopen⟩, rfl⟩ := Function.setExit_gives.1 hf
  exact Function.grows_withExit hx hopen e

/-- A machine that stands at the end of a block that has been left is at its exit. -/
theorem leave_exit {e : Exit} {a : Unit} (h : Gives (Lowering.leave e) s a s') (hF : s'.function.Grows M.function)
    (hc : c.At s) :
    ∃ x, M.function.block? c.block = some x ∧ x.instructions[c.position]? = none ∧ x.exit = some e := by
  obtain ⟨f, hf, rfl⟩ := Lowering.gives_leave.1 h
  obtain ⟨-, x, ⟨hx, hopen⟩, rfl⟩ := Function.setExit_gives.1 hf
  obtain ⟨hblock, x', hx', hpos⟩ := hc
  obtain rfl := Option.some.inj (hx.symm.trans hx')
  have hself := Function.block?_withExit hx e s.current
  rw [if_pos rfl] at hself
  exact ⟨_, by rw [hblock, hF.closed_block hself rfl], by simp [hpos], rfl⟩

theorem branchTo_grows {b : BlockId} {a : Unit} (h : Gives (Lowering.branchTo b) s a s') :
    s.function.Grows s'.function := by
  simp only [Lowering.branchTo, gives_bind (x := Lowering.isTerminated), Lowering.gives_isTerminated, gives_ite,
    gives_pure] at h
  obtain ⟨_, _, ⟨-, rfl⟩, ⟨-, -, rfl⟩ | ⟨-, h⟩⟩ := h
  · exact .refl _
  · simp only [gives_bind, Lowering.gives_inFunction, Function.labelOf_gives] at h
    obtain ⟨_, _, ⟨_, ⟨-, rfl⟩, rfl⟩, h⟩ := h
    exact leave_grows h

theorem labelTarget?_of_block {f : Function} (hc : f.Coherent) (hF : f.Grows M.function) {b : BlockId} {y : Block}
    (hy : f.block? b = some y) : M.function.labelTarget? y.label = some b :=
  hF.labelTarget? (hc.label_iff.2 ⟨y, hy, rfl⟩)

theorem branchTo_runs (hco : s.function.Coherent) (hopen : s.function.IsOpen s.current) {b : BlockId} {a : Unit}
    (h : Gives (Lowering.branchTo b) s a s') (hF : s'.function.Grows M.function) (hc : c.At s) :
    M.Runs c (c.goes b) := by
  simp only [Lowering.branchTo, gives_bind (x := Lowering.isTerminated), Lowering.gives_isTerminated,
    Site.isTerminated_of_isOpen hopen] at h
  obtain ⟨_, _, ⟨rfl, rfl⟩, h⟩ := h
  simp only [Bool.false_eq_true, if_false, gives_bind, Lowering.gives_inFunction, Function.labelOf_gives] at h
  obtain ⟨_, _, ⟨_, ⟨⟨y, hy, rfl⟩, rfl⟩, rfl⟩, h⟩ := h
  obtain ⟨x, hx, hpos, hexit⟩ := leave_exit h hF hc
  have hF₀ : s.function.Grows M.function := (leave_grows h).trans hF
  refine .single ?_
  simp [step, hx, hpos, hexit, goTo, labelTarget?_of_block hco hF₀ hy, Config.goes]

theorem branchOn_grows {condition : ValueId} {taken otherwise : BlockId} {a : Unit}
    (h : Gives (Lowering.branchOn condition taken otherwise) s a s') : s.function.Grows s'.function := by
  simp only [Lowering.branchOn, gives_bind, Lowering.gives_inFunction, Function.labelOf_gives] at h
  obtain ⟨_, _, ⟨_, ⟨-, rfl⟩, rfl⟩, _, _, ⟨_, ⟨-, rfl⟩, rfl⟩, h⟩ := h
  exact leave_grows h

theorem branchOn_runs (hco : s.function.Coherent) {condition : ValueId} {taken otherwise : BlockId} {a : Unit}
    (h : Gives (Lowering.branchOn condition taken otherwise) s a s') (hF : s'.function.Grows M.function) (hc : c.At s)
    {v : V} (hv : M.scalar c condition = some v) :
    M.Runs c (c.goes (if M.meaning.holds v then taken else otherwise)) := by
  simp only [Lowering.branchOn, gives_bind, Lowering.gives_inFunction, Function.labelOf_gives] at h
  obtain ⟨_, _, ⟨_, ⟨⟨y, hy, rfl⟩, rfl⟩, rfl⟩, _, _, ⟨_, ⟨⟨z, hz, rfl⟩, rfl⟩, rfl⟩, h⟩ := h
  obtain ⟨x, hx, hpos, hexit⟩ := leave_exit h hF hc
  have hF₀ : s.function.Grows M.function := (leave_grows h).trans hF
  refine .single ?_
  by_cases hb : M.meaning.holds v
  · simp [step, hx, hpos, hexit, hv, hb, goTo, labelTarget?_of_block hco hF₀ hy, Config.goes]
  · simp [step, hx, hpos, hexit, hv, hb, goTo, labelTarget?_of_block hco hF₀ hz, Config.goes]

/-! ## Values in their places -/

/-- An expression whose value is used computes one. -/
theorem lowerExpr_stands {e : Expr} (he : e.isScalar = true) {g g₁ : Site} {v : ValueId} (hr : g.Ready)
    (hr₁ : g₁.Ready) (hS : E.Suits M g.state.unit) (h : Gives (Lowering.lowerExpr e) g.state v g₁.state)
    (hF : g₁.state.function.Grows M.function) (hc : c.At g.state)
    (hv : M.Variables g.state.function c g.state.scopes.flatten env) {ty : LoweredType}
    (hty : M.function.valueType? v = some ty) :
    ∃ c' o, E.evaluate env e c.calls = some (some o, c'.calls) ∧ M.Passes g.state g₁.state c c' ∧
      c'.cells = c.cells ∧ M.Stands g₁.state.function c' v o := by
  obtain ⟨c', o, ev, hp, hm, hq⟩ := lowerExpr_passes e he hr hS h hF hc hv
  obtain ⟨o, rfl, hst⟩ := hq.stands (absent hr₁ hF) hty
  exact ⟨c', o, ev, hp, hm, hst⟩

theorem store_typed {slot v : ValueId} {a : Unit} (h : Gives (Lowering.store slot v) s a s')
    (hF : s'.function.Grows M.function) : ∃ ty, M.function.valueType? v = some ty := by
  have hF₀ := (store_grows h).trans hF
  simp only [Lowering.store, gives_bind (x := Lowering.typeOf _), Lowering.gives_typeOf] at h
  obtain ⟨_, _, ⟨-, rfl⟩, ty, _, ⟨hty, rfl⟩, -⟩ := h
  exact ⟨ty, hF₀.valueType? (Function.operandType_eq_ok_iff_valueType?.1 hty)⟩

/-- The value of an expression, as one of the type of the slot, is put in the slot. -/
theorem assigned_passes {e : Expr} (he : e.isScalar = true) {g : Site} (hr : g.Ready) (hS : E.Suits M g.state.unit)
    {slot : ValueId} {a : Unit} (h : Gives (do
      let v ← Lowering.lowerExpr e
      Lowering.store slot v) g.state a s')
    (hF : s'.function.Grows M.function) (hc : c.At g.state)
    (hv : M.Variables g.state.function c g.state.scopes.flatten env) {t : Elementary} {w : V}
    (hs : M.Holds g.state.function c slot t w) :
    ∃ c' n x, E.evaluateAs env t e c.calls = some (x, c'.calls) ∧ M.Passes g.state s' c c' ∧
      M.datum c slot = some (.cell n) ∧ n < c.cells.length ∧ c'.cells = c.cells.set n x := by
  obtain ⟨v, s₁, h₁, h₂⟩ := gives_bind.1 h
  obtain ⟨g₁, rfl, o₁, -⟩ := Site.lowerExpr_yields e hr v s₁ h₁
  have hF₁ := (store_grows h₂).trans hF
  have grow₁ := o₁.trace.function_grows
  obtain ⟨ty, hty⟩ := store_typed h₂ hF
  obtain ⟨c₁, o, ev₁, p₁, m₁, st₁⟩ := lowerExpr_stands he hr (o₁.ready hr) hS h₁ hF₁ hc hv hty
  have hs₁ := hs.mono grow₁ (grow₁.trans hF₁) p₁.agree (m₁ ▸ List.prefix_refl _)
  obtain ⟨c₂, n, p₂, hn, hlt, m₂, e₂⟩ := store_passes hS.lawful h₂ hF p₁.arrived hs₁ st₁
  rw [datum_of_agree hs.made (grow₁.trans hF₁) p₁.agree] at hn
  refine ⟨c₂, n, (o.coerce M.meaning t).value, ?_, p₁.trans p₂ grow₁, hn, m₁ ▸ hlt, by rw [m₂, m₁]⟩
  simp [Evaluator.evaluateAs, ev₁, hS.meaning, e₂]

/-! ## First values -/

theorem stripLeaf_of_elementary? {ty : Ty} {e : Elementary} (h : ty.elementary? = some e) :
    ty.stripLeaf = .elementary e ∧ ty.isSum = false ∧ ty.isComposite = false := by
  induction ty using Ty.elementary?.induct with
  | case1 e' =>
    cases h
    exact ⟨rfl, rfl, rfl⟩
  | case2 name ty ih =>
    obtain ⟨h₁, h₂, h₃⟩ := ih h
    exact ⟨h₁, h₂, h₃⟩
  | case3 ty h₁ h₂ => cases ty <;> simp_all [Ty.elementary?]

/-- Elementary types of the same shape are equal. -/
theorem eq_of_sameShape {a b : Ty} {e e' : Elementary} (h : a.sameShape b = true) (ha : a.elementary? = some e)
    (hb : b.elementary? = some e') : e = e' := by
  induction a using Ty.elementary?.induct with
  | case1 e₀ =>
    cases ha
    simpa [Ty.sameShape, (stripLeaf_of_elementary? hb).1] using h
  | case2 name a ih => exact ih (by simpa [Ty.sameShape] using h) ha
  | case3 a h₁ h₂ => cases a <;> simp_all [Ty.elementary?]

/-- An elementary value is built from its single argument. -/
theorem fill_elementary {ty : Ty} {t : Elementary} (ht : ty.elementary? = some t) (slot : ValueId) (arg : Expr) :
    Lowering.fill slot ty [arg] = (do
      let v ← Lowering.lowerExpr arg
      Lowering.store slot v) := by
  obtain ⟨-, hsum, hcomp⟩ := stripLeaf_of_elementary? ht
  have hplan : FillPlan.of [arg.ty] ty = ⟨[], .whole⟩ := by
    rw [FillPlan.of]
    split
    · rfl
    · simp [hsum, hcomp]
  simp [Lowering.fill, hplan, Lowering.prepare, Lowering.enterPath, Lowering.storeAll, Lowering.storeArgument]

theorem coerce_coerce (I : Interpretation V) (o : Operand V) (t : Elementary) :
    (o.coerce I t).coerce I t = o.coerce I t := if_pos (coerce_ty I o t)

/-- A variable takes the value of its initial expression; a conversion to its own type may be left to the slot. -/
theorem fillInitial_gives {slot : ValueId} {ty : Ty} {t : Elementary} (ht : ty.elementary? = some t) {e : Expr}
    (he : e.isScalar = true) {a : Unit} (h : Gives (Lowering.fillInitial slot ty e) s a s') :
    ∃ e', e'.isScalar = true ∧
      (∀ (E : Evaluator V) env calls, E.evaluateAs env t e' calls = E.evaluateAs env t e calls) ∧
      Gives (do
        let v ← Lowering.lowerExpr e'
        Lowering.store slot v) s a s' := by
  cases e with
  | call name args callee explicit ety span =>
    simp only [Lowering.fillInitial, gives_ite] at h
    rcases h with ⟨hcond, h⟩ | ⟨-, h⟩
    · rw [Bool.and_eq_true] at hcond
      cases explicit with
      | false => simp [Expr.isScalar, hcond.1] at he
      | true =>
        match args, he, h with
        | [arg], he, h =>
          simp only [Expr.isScalar, Bool.and_eq_true] at he
          obtain ⟨e₀, he₀, -⟩ := (Option.any_eq_true _ _).1 he.2
          obtain rfl := eq_of_sameShape hcond.2 he₀ ht
          rw [fill_elementary he₀] at h
          refine ⟨arg, he.1, fun E env calls => ?_, h⟩
          simp only [Evaluator.evaluateAs, Evaluator.evaluate]
          rcases E.evaluate env arg calls with _ | ⟨_ | o, calls'⟩
          · rfl
          · simp [he₀]
          · simp [he₀, coerce_coerce]
    · exact ⟨_, he, fun _ _ _ => rfl, h⟩
  | constant | text | ident | binary | choice =>
    exact ⟨_, he, fun _ _ _ => rfl, by simpa only [Lowering.fillInitial] using h⟩

/-! ## Simple statements -/

theorem Tracks.onward {g g' : Site} (h : Tracks E M g.state c env) (ho : Site.Onward g g')
    (hp : M.Passes g.state g'.state c c') (hF : g'.state.function.Grows M.function) (hcells : c.cells <+: c'.cells) :
    Tracks E M g'.state c' env :=
  h.mono ho.trace.function_grows hF ho.scopes ho.trace.returnSlot_eq hp.agree hcells

theorem define_state {name : String} {slot : ValueId} {a : Unit} (h : Gives (Lowering.define name slot) s a s') :
    s'.function = s.function ∧ s'.current = s.current := by
  simp only [Lowering.define, gives_modify] at h
  subst h
  split <;> exact ⟨rfl, rfl⟩

theorem At.of_eq (h : c.At s) (hf : s'.function = s.function) (hcur : s'.current = s.current) : c.At s' := by
  rw [Config.At, hf, hcur]
  exact h

/-- A name gets a fresh slot, which is given its first value. -/
theorem Follows.introduce {g g₁ g₂ : Site} {c₁ c₂ : Config V} {name : String} {slot : ValueId} {t : Elementary}
    {n : Nat} {w x : V} {a : Unit} (hf : Follows E M g.state c env) (o₁ : Site.Onward g g₁) (o₂ : Site.Onward g₁ g₂)
    (hF : g₂.state.function.Grows M.function) (p₁ : M.Passes g.state g₁.state c c₁)
    (hcells₁ : c₁.cells = c.cells ++ [w]) (hfresh : M.datum c₁ slot = some (.cell c.cells.length))
    (hs : M.Holds g₁.state.function c₁ slot t w) (p₂ : M.Passes g₁.state g₂.state c₁ c₂)
    (hn : M.datum c₁ slot = some (.cell n)) (hcells₂ : c₂.cells = c₁.cells.set n x)
    (hd : Gives (Lowering.define name slot) g₂.state a s') : Follows E M s' c₂ ((name, t, x) :: env) := by
  obtain ⟨hfun, hcur⟩ := define_state hd
  obtain rfl : c.cells.length = n := by
    rw [hfresh] at hn
    cases hn
    rfl
  refine ⟨At.of_eq p₂.arrived hfun hcur, by rw [hfun, hcur]; exact o₂.isOpen, ?_⟩
  exact hf.tracks.introduce o₁.trace.function_grows o₂.trace.function_grows hF o₁.scopes o₂.scopes
    o₁.trace.returnSlot_eq o₂.trace.returnSlot_eq p₁.agree (hcells₁ ▸ List.prefix_append _ _) hfresh hs p₂.agree
    hcells₂ hd

attribute [local simp] Evaluator.execute Evaluator.executeBody Evaluator.executeAll

theorem declare_runs {name : String} {ty : Ty} {e : Expr} {span : Span}
    (hty : ty.elementary?.any Elementary.isDiscrete = true) (he : e.isScalar = true) :
    StatementRuns E M (.declare name ty (some e) span) := by
  intro g c env a s' hr hS h hF hf
  rw [Lowering.lowerStatement] at h
  obtain ⟨t, ht, hd⟩ := (Option.any_eq_true _ _).1 hty
  simp only [gives_bind] at h
  obtain ⟨lowered, s₁, h₁, slot, s₂, h₂, _, s₃, h₃, h₄⟩ := h
  obtain ⟨rfl, rfl⟩ := lowerType_elementary ht h₁
  obtain ⟨g₂, rfl, o₂, u₂⟩ := Site.alloca_yields hr.sound (CompilationUnit.knows_elementary _ _) slot s₂ h₂
  have hr₂ := o₂.ready hr
  obtain ⟨e', he', hsame, h₃⟩ := fillInitial_gives (V := V) ht he h₃
  obtain ⟨g₃, rfl, o₃, -⟩ := Site.assigned_yields hr₂ u₂ e' () s₃ h₃
  have hF₃ : g₃.state.function.Grows M.function := (define_state h₄).1 ▸ hF
  have hF₂ := o₃.trace.function_grows.trans hF₃
  obtain ⟨c₁, p₁, m₁, e₁, hfresh, hs⟩ := alloca_passes h₂ hd hF₂ hf.arrived
  have htr₁ := hf.tracks.onward o₂ p₁ hF₂ (m₁ ▸ List.prefix_append _ _)
  obtain ⟨c₂, n, x, ev, p₂, hn, -, m₂⟩ := assigned_passes he' hr₂ (hS.of_extends o₂.trace.unit_extends) h₃ hF₃
    p₁.arrived htr₁.named hs
  rw [hsame, e₁] at ev
  exact ⟨.next ((name, t, x) :: env), c₂, by simp [ht, ev], p₁.runs.trans p₂.runs,
    hf.introduce o₂ o₃ hF₃ p₁ m₁ hfresh hs p₂ hn m₂ h₄⟩

theorem assign_runs {name : String} {e : Expr} {span : Span} (he : e.isScalar = true) :
    StatementRuns E M (.assign name e span) := by
  intro g c env a s' hr hS h hF hf
  rw [Lowering.lowerStatement] at h
  simp only [gives_bind (x := Lowering.slotOf _), Lowering.gives_slotOf] at h
  obtain ⟨slot, _, ⟨hslot, rfl⟩, h⟩ := h
  obtain ⟨t, w, hlook, hs⟩ := hf.tracks.named.lookup (findSome?_lookup name _ ▸ hslot)
  obtain ⟨scope, hsc, hl⟩ := List.exists_of_findSome?_eq_some hslot
  obtain ⟨g₁, rfl, o₁, -⟩ := Site.assigned_yields hr (hr.slots scope hsc _ (mem_of_lookup hl)) e () s' h
  obtain ⟨c₁, n, x, ev, p₁, hn, -, m₁⟩ := assigned_passes he hr hS h hF hf.arrived hf.tracks.named hs
  refine ⟨.next (env.assign name x), c₁, by simp [hlook, ev], p₁.runs, p₁.arrived, o₁.isOpen, ?_⟩
  exact hf.tracks.assign o₁.trace.function_grows hF o₁.scopes o₁.trace.returnSlot_eq p₁.agree m₁ hslot hn

theorem giveNothing_runs {span : Span} : StatementRuns E M (.give none span) := by
  intro g c env a s' hr hS h hF hf
  rw [Lowering.lowerStatement] at h
  simp only [Lowering.lowerReturn, gives_get_bind] at h
  cases hret : g.state.function.returnSlot with
  | some slot => simp [hret, gives_bind] at h
  | none =>
    rw [hret] at h
    have h' : Gives (Lowering.branchTo g.state.endBlock) g.state a s' := by simpa using h
    refine ⟨.returned none, c.goes g.state.endBlock,
      by simp [hf.tracks.noResult hret, Config.goes],
      branchTo_runs hr.sound.coherent hf.isOpen h' hF hf.arrived, rfl, rfl, ?_⟩
    rw [hret]
    trivial

theorem give_runs {e : Expr} {span : Span} (he : e.isScalar = true) : StatementRuns E M (.give (some e) span) := by
  intro g c env a s' hr hS h hF hf
  rw [Lowering.lowerStatement] at h
  simp only [Lowering.lowerReturn, gives_get_bind] at h
  cases hret : g.state.function.returnSlot with
  | none => simp [hret, gives_bind] at h
  | some slot =>
    rw [hret] at h
    obtain ⟨hne, hs⟩ := hf.tracks.result hret
    obtain ⟨v, s₁, h₁, h₂⟩ := gives_bind.1 h
    obtain ⟨_, s₂, h₂, h₃⟩ := gives_bind.1 h₂
    have h₁₂ := gives_bind.2 ⟨_, _, h₁, h₂⟩
    obtain ⟨g₂, rfl, o₂, -⟩ := Site.assigned_yields hr (hr.returnSlot slot (by simp [hret])) e () s₂ h₁₂
    have hr₂ := o₂.ready hr
    have hF₂ : g₂.state.function.Grows M.function := (branchTo_grows h₃).trans hF
    obtain ⟨c₂, n, x, ev, p₂, hn, hlt, m₂⟩ := assigned_passes he hr hS h₁₂ hF₂ hf.arrived hf.tracks.named hs
    have hn₂ : M.datum c₂ slot = some (.cell n) :=
      (datum_of_agree hs.made (o₂.trace.function_grows.trans hF₂) p₂.agree).trans hn
    refine ⟨.returned (some x), c₂.goes g.state.endBlock, by simp [hne, ev, Config.goes],
      p₂.runs.trans (branchTo_runs hr₂.sound.coherent hr₂.isOpen h₃ hF p₂.arrived), rfl, rfl, ?_⟩
    rw [hret]
    exact ⟨n, hn₂, by simp [Config.goes, m₂, hlt]⟩

theorem effect_runs {e : Expr} (he : e.isScalar = true) : StatementRuns E M (.effect e) := by
  intro g c env a s' hr hS h hF hf
  rw [Lowering.lowerStatement] at h
  obtain ⟨v, s₁, h₁, h₂⟩ := gives_bind.1 h
  obtain ⟨-, rfl⟩ := gives_pure.1 h₂
  obtain ⟨g', rfl, ho, -⟩ := Site.lowerExpr_yields e hr v s₁ h₁
  obtain ⟨c₁, o, ev, p, hm, -⟩ := lowerExpr_passes e he hr hS h₁ hF hf.arrived hf.tracks.named
  exact ⟨.next env, c₁, by simp [ev], p.runs, p.arrived, ho.isOpen,
    hf.tracks.onward ho p hF (hm ▸ List.prefix_refl _)⟩

/-! ## Branches -/

/-- The place that a return goes to is the same from an earlier place. -/
theorem Outcome.of_trace {g o : Site} {flow : Flow V} (h : Outcome E M o.state s' c flow) (ht : Site.Trace g o) :
    Outcome E M g.state s' c flow := by
  cases flow with
  | next env => exact h
  | returned value =>
    obtain ⟨hblock, hpos, hleaves⟩ := h
    exact ⟨hblock.trans ht.endBlock_eq, hpos, ht.returnSlot_eq ▸ hleaves⟩

/-- At the start of a block that lowering has just come to, with memory as it was. -/
theorem Follows.enter {g o : Site} {b : BlockId} (h : Tracks E M g.state c env) (ht : Site.Trace g o)
    (hsc : o.state.scopes = g.state.scopes) (hF : o.state.function.Grows M.function)
    (hopen : o.state.function.IsOpen o.state.current) (he : o.Enters b) : Follows E M o.state (c.goes b) env := by
  obtain ⟨rfl, x, hx, hblank⟩ := he
  exact ⟨⟨rfl, x, hx, by simp [hblank, Config.goes]⟩, hopen,
    h.mono ht.function_grows hF hsc ht.returnSlot_eq (fun _ _ => rfl) (List.prefix_refl _)⟩

/-- The code of an arm comes to the join, unless the arm returns. -/
theorem arm_runs {o gt g' : Site} {b join : BlockId} {body : Body} (hbody : BodyRuns E M body) (hr : o.Ready)
    (hS : E.Suits M o.state.unit) (harm : Site.Arm o b join (Lowering.lowerBody body) gt) (ht : Site.Trace gt g')
    (ho : Site.Onward o g') (he : g'.Enters join) (hF : g'.state.function.Grows M.function)
    (htr : Tracks E M o.state c env) :
    ∃ flow c', E.executeBody body env c.calls = some (flow, c'.calls) ∧ M.Runs (c.goes b) c' ∧
      Outcome E M o.state g'.state c' flow := by
  obtain ⟨g₁, g₂, a₁, e₁, hgives, t₁₂, hjoin, t₂⟩ := harm
  have hr₁ := a₁.ready hr
  have hF₂ := (t₂.trans ht).function_grows.trans hF
  have hf₁ := Follows.enter htr a₁.trace a₁.scopes (t₁₂.function_grows.trans hF₂) a₁.isOpen e₁
  obtain ⟨flow, c₁, ev, hruns, hout⟩ := hbody hr₁ (hS.of_extends a₁.trace.unit_extends) hgives hF₂ hf₁
  cases flow with
  | returned value => exact ⟨_, c₁, ev, hruns, Outcome.of_trace hout a₁.trace⟩
  | next env' =>
    have hsc₂ : g₂.state.scopes = g₁.state.scopes := by
      obtain ⟨g, hg, ho | hl⟩ := Site.lowerBody_passes body hr₁ hgives
      · rw [← hg, ho.scopes]
      · rw [← hg, hl.scopes]
    have hsc : g'.state.scopes = g₂.state.scopes := by rw [ho.scopes, hsc₂, a₁.scopes]
    have hco := (t₁₂.sound hr₁.sound).coherent
    have hgo := branchTo_runs hco hout.isOpen hjoin (ht.function_grows.trans hF) hout.arrived
    exact ⟨_, c₁.goes join, ev, hruns.trans hgo, Follows.enter hout.tracks (t₂.trans ht) hsc hF ho.isOpen he⟩

/-- A condition sends the run to one of two blocks, with memory as it was. -/
theorem fork_runs {condition : Expr} (hcond : condition.isScalar = true) {g g₁ g' : Site} (hr : g.Ready)
    (hS : E.Suits M g.state.unit) {v : ValueId} {taken otherwise join : BlockId} (h : Gives (do
      let v ← Lowering.lowerExpr condition
      Lowering.coerce v (.elementary .bool)) g.state v g₁.state) (ho : Site.Onward g g₁)
    (hfork : Site.Forks g₁ v taken otherwise join g') (hF : g'.state.function.Grows M.function)
    (hf : Follows E M g.state c env) :
    ∃ c₁ x, E.evaluateAs env .bool condition c.calls = some (x, c₁.calls) ∧
      M.Runs c (c₁.goes (if M.meaning.holds x then taken else otherwise)) ∧ Tracks E M g₁.state c₁ env := by
  obtain ⟨ga, gb, a, hst, hb, t⟩ := hfork.left
  have hFb := t.function_grows.trans hF
  have hFa := (branchOn_grows hb).trans hFb
  have hF₁ := a.trace.function_grows.trans hFa
  obtain ⟨c₁, o, ev, p, hm, hst₁⟩ := coerced_passes (lowerExpr_passes condition hcond) rfl hr hS h hF₁ hf.arrived
    hf.tracks.named
  have hat : c₁.At ga.state := by
    obtain ⟨hblock, y, hy, hpos⟩ := p.arrived
    exact ⟨hblock.trans hst.current.symm, y, hst.block.trans hy, hpos⟩
  have hco := (a.ready (ho.ready hr)).sound.coherent
  exact ⟨c₁, _, by simp [Evaluator.evaluateAs, ev, hS.meaning],
    p.runs.trans (branchOn_runs hco hb hFb hat hst₁.scalar), hf.tracks.onward ho p hF₁ (hm ▸ List.prefix_refl _)⟩

theorem branchElse_runs {condition : Expr} {whenTrue whenFalse : Body} {span : Span}
    (hcond : condition.isScalar = true) (hT : BodyRuns E M whenTrue) (hE : BodyRuns E M whenFalse) :
    StatementRuns E M (.branch condition whenTrue (some whenFalse) span) := by
  intro g c env a s' hr hS h hF hf
  obtain ⟨v, g₁, t, e, join, gt, ge, g', rfl, h₁, o₁, hfork, armT, tT, armE, tE⟩ :=
    Site.branchElse_forks hr (Site.lowerBody_passes _) (Site.lowerBody_passes _) h
  obtain ⟨c₁, x, ev, hruns, htr⟩ := fork_runs hcond hr hS h₁ o₁ hfork hF hf
  have hr₁ := o₁.ready hr
  have hS₁ := hS.of_extends o₁.trace.unit_extends
  rw [Evaluator.execute, ev, hS.meaning]
  by_cases hx : M.meaning.holds x = true
  · rw [if_pos hx] at hruns
    obtain ⟨flow, c₂, ev₂, hruns₂, hout⟩ := arm_runs hT hr₁ hS₁ armT tT hfork.onward hfork.enters hF htr
    exact ⟨flow, c₂, by simpa [hx] using ev₂, hruns.trans hruns₂, Outcome.of_trace hout o₁.trace⟩
  · rw [if_neg hx] at hruns
    obtain ⟨flow, c₂, ev₂, hruns₂, hout⟩ := arm_runs hE hr₁ hS₁ armE tE hfork.onward hfork.enters hF htr
    exact ⟨flow, c₂, by simpa [hx] using ev₂, hruns.trans hruns₂, Outcome.of_trace hout o₁.trace⟩

theorem branch_runs {condition : Expr} {whenTrue : Body} {span : Span} (hcond : condition.isScalar = true)
    (hT : BodyRuns E M whenTrue) : StatementRuns E M (.branch condition whenTrue none span) := by
  intro g c env a s' hr hS h hF hf
  obtain ⟨v, g₁, t, join, gt, g', rfl, h₁, o₁, hfork, armT, tT⟩ :=
    Site.branch_forks hr (Site.lowerBody_passes _) h
  obtain ⟨c₁, x, ev, hruns, htr⟩ := fork_runs hcond hr hS h₁ o₁ hfork hF hf
  have hr₁ := o₁.ready hr
  have hS₁ := hS.of_extends o₁.trace.unit_extends
  rw [Evaluator.execute, ev, hS.meaning]
  by_cases hx : M.meaning.holds x = true
  · rw [if_pos hx] at hruns
    obtain ⟨flow, c₂, ev₂, hruns₂, hout⟩ := arm_runs hT hr₁ hS₁ armT tT hfork.onward hfork.enters hF htr
    exact ⟨flow, c₂, by simpa [hx] using ev₂, hruns.trans hruns₂, Outcome.of_trace hout o₁.trace⟩
  · rw [if_neg hx] at hruns
    have ho := hfork.onward
    exact ⟨.next env, c₁.goes join, by simp [hx, Config.goes], hruns,
      Follows.enter htr ho.trace ho.scopes hF ho.isOpen hfork.enters⟩

/-! ## All statements -/

/-- The names of a body are forgotten after it. -/
theorem body_runs {statements : List Statement} {symbols : SymbolTable} {span : Span}
    (hall : StatementsRun E M statements) : BodyRuns E M ⟨statements, symbols, span⟩ := by
  intro g c env a s' hr hS h hF hf
  rw [Lowering.lowerBody] at h
  obtain ⟨t, ht, rfl⟩ := Lowering.gives_inScope.1 h
  have hr₀ : (g.withScopes ([] :: g.state.scopes)).Ready := hr.withScopes (by simpa using hr.slots)
  have hf₀ : Follows E M (g.withScopes ([] :: g.state.scopes)).state c env :=
    ⟨hf.arrived, hf.isOpen, hf.tracks.enterScope⟩
  obtain ⟨g', rfl, hadv⟩ := Site.lowerStatements_advances statements hr₀ ht
  have htail : g'.state.scopes.tail = g.state.scopes := hadv.tail
  obtain ⟨flow, c', ev, hruns, hout⟩ := hall hr₀ hS ht hF hf₀
  cases flow with
  | returned value => exact ⟨.returned value, c', by simp [ev], hruns, hout⟩
  | next env' =>
    have hlen : env.length = g'.state.scopes.tail.flatten.length := by rw [htail, hf.tracks.named.length_eq]
    refine ⟨.next (env'.drop (env'.length - env.length)), c', by simp [ev], hruns,
      hout.arrived, hout.isOpen, ?_⟩
    rw [hlen]
    exact hout.tracks.leaveScope (htail ▸ hf.tracks.hasScope)

theorem statementsRun_nil : StatementsRun E M [] := by
  intro g c env a s' hr hS h hF hf
  rw [Lowering.lowerStatements] at h
  obtain ⟨-, rfl⟩ := gives_pure.1 h
  exact ⟨.next env, c, by simp, .refl c, hf⟩

/-- After a return nothing runs, whether or not the rest has been lowered. -/
theorem statementsRun_cons {st : Statement} {rest : List Statement} (hst : StatementRuns E M st)
    (hrest : StatementsRun E M rest) : StatementsRun E M (st :: rest) := by
  intro g c env a s' hr hS h hF hf
  obtain ⟨s₁, h₁, hopen, hclosed⟩ := Site.gives_lowerStatements_cons h
  obtain ⟨g₁, rfl, a₁⟩ := Site.lowerStatement_advances st hr h₁
  have hF₁ : g₁.state.function.Grows M.function := by
    rcases a₁.outcome with ⟨hr₁, -⟩ | hc
    · obtain ⟨g₂, rfl, a₂⟩ := Site.lowerStatements_advances rest hr₁ (hopen hr₁.isOpen)
      exact a₂.trace.function_grows.trans hF
    · exact hclosed hc ▸ hF
  obtain ⟨flow, c₁, ev, hruns, hout⟩ := hst hr hS h₁ hF₁ hf
  cases flow with
  | returned value => exact ⟨.returned value, c₁, by simp [ev], hruns, hout⟩
  | next env₁ =>
    have hr₁ : g₁.Ready := a₁.outcome.elim And.left fun hc => (Function.IsOpen.not_isClosed hout.isOpen hc).elim
    have hS₁ := hS.of_extends a₁.trace.unit_extends
    obtain ⟨flow, c₂, ev₂, hruns₂, hout₂⟩ := hrest hr₁ hS₁ (hopen hr₁.isOpen) hF hout
    exact ⟨flow, c₂, by simpa [ev] using ev₂, hruns.trans hruns₂,
      Outcome.of_trace hout₂ a₁.trace⟩

mutual

/-- **The code of a statement does what evaluation does.** -/
theorem lowerStatement_runs : (st : Statement) → st.isScalar = true → StatementRuns E M st
  | .declare _ _ (some _) _, hst => by
    simp only [Statement.isScalar, Bool.and_eq_true] at hst
    exact declare_runs hst.1 hst.2
  | .assign _ _ _, hst => assign_runs hst
  | .give none _, _ => giveNothing_runs
  | .give (some _) _, hst => give_runs hst
  | .branch _ whenTrue (some whenFalse) _, hst => by
    simp only [Statement.isScalar, Bool.and_eq_true] at hst
    exact branchElse_runs hst.1.1 (lowerBody_runs whenTrue hst.1.2) (lowerBody_runs whenFalse hst.2)
  | .branch _ whenTrue none _, hst => by
    simp only [Statement.isScalar, Bool.and_eq_true] at hst
    exact branch_runs hst.1 (lowerBody_runs whenTrue hst.2)
  | .effect _, hst => effect_runs hst

theorem lowerBody_runs : (body : Body) → body.isScalar = true → BodyRuns E M body
  | ⟨statements, _, _⟩, hst => body_runs (lowerStatements_runs statements hst)

theorem lowerStatements_runs : (statements : List Statement) → Statement.areScalar statements = true →
    StatementsRun E M statements
  | [], _ => statementsRun_nil
  | st :: rest, hst => by
    simp only [Statement.areScalar, Bool.and_eq_true] at hst
    exact statementsRun_cons (lowerStatement_runs st hst.1) (lowerStatements_runs rest hst.2)

end

end Machine

end BlockForm
