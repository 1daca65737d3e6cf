import BlockForm.Proofs.Bodies
import BlockForm.Proofs.StatementMeaning

/-!
# BlockForm.Proofs.FunctionMeaning — a lowered function returns what evaluation returns

The entry block makes the return slot and copies the arguments into slots; from there the body runs as evaluation has
it.  Both a return and the end of the body lead to the end block, which returns what is in the slot.
-/

namespace BlockForm

open Action

variable {V : Type}

/-- The first moment of a run. -/
def Config.first : Config V := ⟨⟨0⟩, 0, fun _ => none, [], []⟩

namespace Machine

variable {M : Machine V} {E : Evaluator V} {f f' : Function} {s s' : LoweringState} {c c' : Config V}
  {env : Environment V}

theorem start_eq {tys : List LoweredType} (hf : f.Fresh tys) (hF : f.opened.Grows M.function) :
    M.start = some .first := by
  obtain ⟨rest, hrest⟩ := hF.blockIds
  rw [hf.blockIds_opened] at hrest
  rw [start, ← hrest]
  rfl

/-! ## The entry block -/

/-- Before the arguments are spilled, no name is in scope and the return slot is fresh. -/
theorem prepareReturn_runs {u : CompilationUnit} {tys : List LoweredType} (hf : f.Fresh tys)
    (hres : f.returnType = .elementary E.result) (hd : E.result ≠ .nil → E.result.isDiscrete = true) {a : Unit}
    (h : Gives Lowering.prepareReturn ⟨u, f.opened, ⟨0⟩, ⟨1⟩, [[]]⟩ a s') (hF : s'.function.Grows M.function)
    (hopen : s'.function.IsOpen s'.current) :
    ∃ c, M.Runs .first c ∧ c.calls = [] ∧ Follows E M s' c [] := by
  have hat : (Config.first : Config V).At ⟨u, f.opened, ⟨0⟩, ⟨1⟩, [[]]⟩ :=
    ⟨rfl, ⟨f.nextValue, #[], none⟩, by simp [Function.block?, hf.blocks_opened], rfl⟩
  have hret : f.opened.returnType = .elementary E.result := hres
  simp only [Lowering.prepareReturn, gives_get_bind, gives_ite, gives_pure, hret] at h
  rcases h with ⟨hnil, -, rfl⟩ | ⟨hnil, h⟩
  · have hnone : f.opened.returnSlot = none := hf.returnSlot
    have hr : E.result = .nil := by
      simpa [LoweredType.isNil, LoweredType.elementary, LoweredType.elementary?] using hnil
    refine ⟨.first, .refl _, rfl, hat, hopen, .nil, ?_, fun _ => hr, ?_, by simp⟩
    · intro r hr
      rw [hnone] at hr
      cases hr
    · simp [LoweringState.slots, hnone]
  · have hr : E.result ≠ .nil := by
      intro he
      simp [he, LoweredType.isNil, LoweredType.elementary, LoweredType.elementary?] at hnil
    obtain ⟨slot, s₁, h₁, h₂⟩ := gives_bind.1 h
    simp only [Lowering.gives_inFunction, Function.setReturnSlot, gives_modify] at h₂
    obtain ⟨_, rfl, rfl⟩ := h₂
    have hF₁ : s₁.function.Grows M.function := (Site.grows_withReturnSlot ⟨s₁, fun _ => ∅⟩ slot).trans hF
    obtain ⟨c₁, p₁, -, e₁, -, hs⟩ := alloca_passes h₁ (hd hr) hF₁ hat
    have hsc : s₁.scopes = [[]] := by
      obtain ⟨_, -, rfl⟩ := Lowering.gives_emit.1 h₁
      rfl
    refine ⟨c₁, p₁.runs, e₁, p₁.arrived, hopen, ?_, ?_, ?_, ?_, ?_⟩
    · simp only [hsc]
      exact .nil
    · rintro r ⟨⟩
      exact ⟨hr, hs.made, hs.ty, hs.cell, hs.discrete⟩
    · intro he
      cases he
    · simp [LoweringState.slots, hsc]
    · simp [hsc]

/-- The argument at a position has a value that stands for it. -/
def Takes (M : Machine V) (f : Function) (position : Nat) (t : Elementary) (v : V) : Prop :=
  ∃ w, f.argumentValue? position = some w ∧ ∀ c, M.Stands f c w ⟨t, v, none⟩

theorem Takes.mono {position : Nat} {t : Elementary} {v : V} (h : M.Takes f position t v) (hg : f.Grows f')
    (hF : f.Grows M.function) : M.Takes f' position t v := by
  obtain ⟨w, hw, hst⟩ := h
  refine ⟨w, ?_, fun c => (hst c).mono hg hF fun _ _ => rfl⟩
  rw [Function.argumentValue?, hg.argumentValues]
  exact hw

/-- The arguments become the first variables. -/
theorem spillArguments_runs {name : String} (hI : M.meaning.Lawful) (params : List Param) : ∀ {args : List V}
    {position : Nat} {g : Site} {c : Config V} {env : Environment V} {a : Unit} {s' : LoweringState}, g.Ready →
    (∀ v ∈ g.state.function.argumentValues, g.Usable v) →
    Gives (Lowering.spillArguments name position params) g.state a s' → s'.function.Grows M.function →
    args.length = params.length →
    (∀ k p v, params[k]? = some p → args[k]? = some v →
      ∃ t, p.ty.elementary? = some t ∧ M.Takes g.state.function (position + k) t v) →
    Follows E M g.state c env →
    ∃ env' c', bindParams params args env = some env' ∧ M.Runs c c' ∧ c'.calls = c.calls ∧
      Follows E M s' c' env' := by
  induction params with
  | nil =>
    intro args position g c env a s' hr _ h hF hlen _ hf
    obtain ⟨-, rfl⟩ := gives_pure.1 h
    obtain rfl := List.length_eq_zero_iff.1 hlen
    exact ⟨env, c, rfl, .refl c, rfl, hf⟩
  | cons param params ih =>
    intro args position g c env a s' hr ha h hF hlen htakes hf
    obtain ⟨v, args, rfl⟩ := List.exists_cons_of_length_eq_add_one hlen
    obtain ⟨argument, ty, slot, s₁, s₂, s₃, harg, hty, h₁, h₂, h₃, h⟩ := Site.gives_spillArguments_cons h
    obtain ⟨g₁, g₂, g₃, rfl, rfl, rfl, o₁, o₂, a₃, hr₃, hh, ha₃⟩ := Site.spill_advances hr ha harg hty h₁ h₂ h₃
    obtain ⟨g₄, rfl, a₄, -⟩ := Site.spillArguments_advances params hr₃ ha₃ h
    have hF₃ := a₄.trace.function_grows.trans hF
    have hF₂ := a₃.trace.function_grows.trans hF₃
    have grow₁ := o₁.trace.function_grows
    have hF₁ := o₂.trace.function_grows.trans hF₂
    obtain ⟨t, ht, w, hw, hst⟩ := htakes 0 param v rfl rfl
    obtain rfl := Option.some.inj (hw.symm.trans harg)
    obtain rfl := (hst c).eq_elementary (grow₁.trans hF₁) hty
    obtain ⟨c₁, p₁, m₁, e₁, hfresh, hs⟩ := alloca_passes h₁ (hst c).discrete hF₁ hf.arrived
    obtain ⟨c₂, n, p₂, hn, -, m₂, e₂⟩ := store_passes hI h₂ hF₂ p₁.arrived hs
      ((hst c).mono grow₁ (grow₁.trans hF₁) p₁.agree)
    have hself : ((⟨t, v, none⟩ : Operand V).coerce M.meaning t).value = v := by simp [Operand.coerce]
    rw [hself] at m₂
    have hf₃ := hf.introduce o₁ o₂ hF₂ p₁ m₁ hfresh hs p₂ hn m₂ h₃
    obtain ⟨env', c', hbind, hruns, hcalls, hf'⟩ := ih hr₃ ha₃ h hF (by simpa using hlen) (fun k p x hp hx => by
      obtain ⟨t', ht', htake⟩ := htakes (k + 1) p x (by simpa using hp) (by simpa using hx)
      rw [show position + 1 + k = position + (k + 1) by omega]
      exact ⟨t', ht', htake.mono ((o₁.trans o₂).trace.function_grows.trans a₃.trace.function_grows)
        (grow₁.trans hF₁)⟩) hf₃
    exact ⟨env', c', by simpa [bindParams, ht] using hbind, (p₁.runs.trans p₂.runs).trans hruns,
      by rw [hcalls, e₂, e₁], hf'⟩

/-! ## The end block -/

/-- The machine stands at the return that completes the definition. -/
theorem setReturn_returns {g : Site} (hd : g.Done) (hM : M.function = g.state.function) {u : CompilationUnit}
    {value : Option ValueId} {a : Unit}
    (h : Gives (Lowering.inFunction (Function.setReturn u s.current value)) s a g.state) (hc : c.At s)
    {result : Option V} (hval : (match value with
      | none => some none
      | some v => (M.scalar c v).map some) = some result) : M.returned? c = some result := by
  obtain ⟨f₁, hf, hg⟩ := Lowering.gives_inFunction.1 h
  obtain ⟨x, ty, hx, -, -, -, rfl⟩ := Function.setReturn_gives hf
  have hcur : g.state.current = s.current := by rw [← hg]
  have hfun : M.function = s.function.withReturn s.current x value := by rw [hM, ← hg]
  obtain ⟨hblock, y, hy, hpos⟩ := hc
  obtain rfl := Option.some.inj (hx.symm.trans hy)
  have hself : M.function.block? s.current = some { x with exit := some (.give s.function.nextInstruction) } := by
    rw [hfun, Function.block?_withReturn hx, if_pos rfl]
  have hins : M.function.instruction? s.function.nextInstruction = some ⟨.give value, Function.nilValue⟩ := by
    have := Function.instruction?_withInstruction (f := s.function) (.give value) none s.function.nextInstruction
    rw [if_pos rfl] at this
    rw [hfun]
    exact this
  obtain ⟨z, j, hz, -, hlabel⟩ := hd.returns
  have htarget : M.function.labelTarget? z.label = some s.current := by
    rw [hM]
    exact hd.sound.coherent.label_iff.2 ⟨z, by rw [← hcur, hz], rfl⟩
  rw [← hM] at hlabel
  simp only [returned?, hlabel, hblock, hself, hpos, Option.bind_eq_bind, Option.bind_some, htarget, hins]
  cases value with
  | none => simpa using hval
  | some v => simpa using hval

/-- The end block reads the return slot back and returns what it holds. -/
theorem finishReturn_returns {g : Site} (hd : g.Done) (hM : M.function = g.state.function) {a : Unit}
    (h : Gives Lowering.finishReturn s a g.state) (hc : c.At s) {value : Option V}
    (hv : M.Leaves c s.function.returnSlot value) :
    ∃ c', M.Runs c c' ∧ c'.calls = c.calls ∧ M.returned? c' = some value := by
  simp only [Lowering.finishReturn, gives_get_bind] at h
  cases hret : s.function.returnSlot with
  | none =>
    rw [hret] at h hv
    cases value with
    | some v => exact hv.elim
    | none =>
      have h' : Gives (Lowering.inFunction (Function.setReturn s.unit s.current none)) s a g.state := by simpa using h
      exact ⟨c, .refl c, rfl, setReturn_returns hd hM h' hc rfl⟩
  | some slot =>
    rw [hret] at h hv
    cases value with
    | none => exact hv.elim
    | some v =>
      obtain ⟨n, hn, hcell⟩ := hv
      simp only [gives_bind, gives_pure] at h
      obtain ⟨w, s₁, hread, _, _, ⟨rfl, rfl⟩, h⟩ := h
      have hF₁ : s₁.function.Grows M.function := by
        obtain ⟨f₁, hf, hg⟩ := Lowering.gives_inFunction.1 h
        obtain ⟨x, ty, hx, hopen, -, -, rfl⟩ := Function.setReturn_gives hf
        rw [hM, ← hg]
        exact Function.grows_withReturn hx hopen _
      have hexec : M.execute c (.read slot) = some (some (.scalar v), c.cells, c.calls) := by
        simp [execute, Machine.cell, hn, Datum.cell?, hcell]
      obtain ⟨c₁, ty, p₁, -, hcalls, htypes, -, hres⟩ := emit_passes hread hF₁ hc hexec
      have hcur : s₁.current = s.current := by
        obtain ⟨_, -, rfl⟩ := Lowering.gives_emit.1 hread
        rfl
      rw [← hcur] at h
      generalize hop : Operation.read slot = op at htypes
      cases htypes with
      | read =>
        obtain ⟨-, -, -, hw⟩ := hres _ rfl
        refine ⟨c₁, p₁.runs, hcalls, setReturn_returns hd hM h p₁.arrived ?_⟩
        simp [Machine.scalar, hw, Datum.scalar?]
      | _ => cases hop

/-! ## The whole function -/

/-- A body that comes to its end leaves the return slot as it was made. -/
theorem Tracks.leaves (h : Tracks E M s c env) (hE : E.meaning = M.meaning) :
    M.Leaves c s.function.returnSlot (E.returned (.next env)) := by
  cases hret : s.function.returnSlot with
  | none => simp [Evaluator.returned, h.noResult hret, Leaves]
  | some r =>
    obtain ⟨hne, hh⟩ := h.result hret
    simpa [Evaluator.returned, hne, Leaves, hE] using hh.cell

/-- **The run of a function returns what evaluating its body returns**, after the same calls. -/
theorem course_returns {u : CompilationUnit} {tys : List LoweredType} {item : FunctionItem} {g₁ g₂ g₃ g₄ g : Site}
    (hcourse : Site.Course item ⟨u, f.opened, ⟨0⟩, ⟨1⟩, [[]]⟩ g₁ g₂ g₃ g₄ g) (hM : M.function = g.state.function)
    (hf : f.Fresh tys) (hres : f.returnType = .elementary E.result) (hgrow : f.opened.Grows g₁.state.function)
    (hS : E.Suits M g₁.state.unit) (hbody : item.body.isScalar = true)
    (hlen : M.arguments.length = item.signature.params.length)
    (htakes : ∀ k p v, item.signature.params[k]? = some p → M.arguments[k]? = some v →
      ∃ t, p.ty.elementary? = some t ∧ M.Takes g₁.state.function k t v) :
    ∃ env flow calls, bindParams item.signature.params M.arguments [] = some env ∧
      E.executeBody item.body env [] = some (flow, calls) ∧ M.Returns (E.returned flow) calls := by
  have hF₄ : g₄.state.function.Grows M.function := hM ▸ hcourse.trace₄.function_grows
  have hF₃ := hcourse.trace₃.function_grows.trans hF₄
  have hF₂ := hcourse.trace₂.function_grows.trans hF₃
  have hF₁ := hcourse.trace₁.function_grows.trans hF₂
  have hst := hcourse.started
  obtain ⟨c₁, hruns₁, hcalls₁, hf₁⟩ := prepareReturn_runs hf hres hS.result hcourse.prepared hF₁ hst.ready.isOpen
  obtain ⟨env, c₂, hbind, hruns₂, hcalls₂, hf₂⟩ := spillArguments_runs hS.lawful _ hst.ready hst.arguments
    hcourse.spilled hF₂ hlen (by simpa using htakes) hf₁
  obtain ⟨flow, c₃, ev, hruns₃, hout⟩ := lowerBody_runs item.body hbody hcourse.ready
    (hS.of_extends hcourse.trace₁.unit_extends) hcourse.lowered hF₃ hf₂
  rw [hcalls₂, hcalls₁] at ev
  have hend₂ : g₂.state.endBlock = g₁.state.endBlock := hcourse.trace₁.endBlock_eq
  have hslot₄ : g₄.state.function.returnSlot = g₂.state.function.returnSlot :=
    (hcourse.trace₂.trans hcourse.trace₃).returnSlot_eq
  -- both ways out of the body come to the start of the end block
  obtain ⟨c₄, hruns₄, hcalls₄, hblock, hpos, hleaves⟩ : ∃ c₄, M.Runs c₃ c₄ ∧ c₄.calls = c₃.calls ∧
      c₄.block = g₁.state.endBlock ∧ c₄.position = 0 ∧
      M.Leaves c₄ g₄.state.function.returnSlot (E.returned flow) := by
    cases flow with
    | returned value =>
      obtain ⟨hblock, hpos, hleaves⟩ := hout
      exact ⟨c₃, .refl _, rfl, hblock.trans hend₂, hpos, hslot₄ ▸ hleaves⟩
    | next env' =>
      have hco := (hcourse.trace₂.sound hcourse.ready.sound).coherent
      have hgo := branchTo_runs hco hout.isOpen hcourse.left hF₄ hout.arrived
      refine ⟨c₃.goes g₁.state.endBlock, hgo, rfl, rfl, rfl, ?_⟩
      rw [hcourse.trace₃.returnSlot_eq]
      have hleaves := Tracks.leaves hout.tracks hS.meaning
      exact hleaves
  obtain ⟨_, s₅, hstart, hfinish⟩ := gives_bind.1 hcourse.finished
  obtain ⟨f₅, hf₅, rfl⟩ := Lowering.gives_startBlock.1 hstart
  obtain ⟨l, -, -, rfl⟩ := Function.appendBlock_gives hf₅
  obtain ⟨x, hx⟩ := Function.exists_block? hcourse.pending.1
  have hs₄ := (hcourse.trace₂.trans hcourse.trace₃).sound hcourse.ready.sound
  obtain ⟨hblank, -⟩ := hs₄.laid.blank hx hcourse.pending.2
  obtain ⟨c₅, hruns₅, hcalls₅, hreturned⟩ := finishReturn_returns hcourse.done hM hfinish
    ⟨hblock, x, hx, by simp [hpos, hblank]⟩ hleaves
  refine ⟨env, flow, c₃.calls, hbind, ev, .first, c₅, start_eq hf (hgrow.trans hF₁), ?_, hreturned, ?_⟩
  · exact hruns₁.trans (hruns₂.trans (hruns₃.trans (hruns₄.trans hruns₅)))
  · rw [hcalls₅, hcalls₄]

end Machine

end BlockForm
