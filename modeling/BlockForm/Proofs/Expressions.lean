import BlockForm.Lowering.Expr
import BlockForm.Proofs.Branching

/-!
# BlockForm.Proofs.Expressions — lowering an expression goes onward

`lowerExpr_yields`: from any site where lowering can go on, a successful run of `lowerExpr` ends at such a site again,
with a value that can be read there.  One rule for each helper; a match goes out into its cases and comes back at the
join, where what was known before the dispatch is known.
-/

namespace BlockForm

open Action

namespace Site

variable {o g : Site}

/-! ## Leaves -/

theorem lowerConstant_yields (hr : g.Ready) (c : Constant) (ty : Ty) :
    Yields (Lowering.lowerConstant c ty) g fun v g' => g'.Usable v := by
  unfold Lowering.lowerConstant
  split
  · next typed e h =>
    obtain ⟨e', -, h⟩ := Option.bind_eq_some_iff.1 h
    obtain ⟨c', hc, he⟩ := Option.map_eq_some_iff.1 h
    cases he
    exact constant_yields hr (fits_of_retyped hc)
  · exact constant_yields hr (fits_defaultType c)

theorem intern_yields (hr : g.Ready) (content : String) :
    Yields (Lowering.inUnit (CompilationUnit.internLiteral content)) g fun _ _ => True := by
  intro id s' h
  obtain ⟨u, hu, rfl⟩ := Lowering.gives_inUnit.1 h
  have hstep : Step g ⟨{ g.state with unit := u }, g.known⟩ := .intern hu
  exact ⟨_, rfl, hstep.onward rfl hr.isOpen rfl rfl rfl rfl, trivial⟩

theorem literal_yields (hr : g.Ready) {id : GlobalId} {l : Global} (hl : g.state.unit.globalAt? id = some l) :
    Yields (Lowering.inFunction (Function.literal id l)) g fun v g' => g'.Usable v := by
  intro v s' h
  obtain ⟨f, hf, rfl⟩ := Lowering.gives_inFunction.1 h
  rcases Function.literal_gives hf with ⟨hfound, rfl⟩ | ⟨hnew, -, rfl, rfl⟩
  · obtain ⟨x, hx, hk⟩ := hr.sound.literals _ (mem_of_lookup hfound)
    exact ⟨g, rfl, .refl hr.isOpen, x, hx, fun i hi => absurd hi (hk i)⟩
  · have hstep : Step g _ := .literal (s := g.state) (k := g.known) hl hnew
    refine ⟨_, rfl, hstep.onward rfl hr.isOpen rfl rfl rfl rfl,
      ⟨.literal id l.content, some l.ty, l.name⟩, ?_, nofun⟩
    show (g.state.function.withValue _).value? _ = _
    rw [Function.value?_withValue, if_pos rfl]

theorem lowerLiteral_yields (hr : g.Ready) (content : String) :
    Yields (Lowering.lowerLiteral content) g fun v g' => g'.Usable v := by
  unfold Lowering.lowerLiteral
  refine (intern_yields hr content).bind fun id g' ho _ => yields_get_bind ?_
  exact yields_need_bind fun l hl => literal_yields (ho.ready hr) hl

/-! ## Operators and calls -/

/-- Two values made to fit one type, then joined by an instruction. -/
theorem joined_yields (hr : g.Ready) {lhs rhs : ValueId} (hl : g.Usable lhs) (hrhs : g.Usable rhs)
    (target : LoweredType) (join : ValueId → ValueId → Operation)
    (hop : ∀ l r, (join l r).operands = [l, r]) (hne : ∀ l r t n, join l r ≠ .alloca t n) :
    Yields (do
      let left ← Lowering.coerce lhs target
      let right ← Lowering.coerce rhs target
      Lowering.emit (join left right)) g fun v g' => g'.Usable v := by
  refine (coerce_yields hr hl target).bind fun left g₁ h₁ hleft => ?_
  have hr₁ := h₁.ready hr
  refine (coerce_yields hr₁ (h₁.usable hrhs) target).bind fun right g₂ h₂ hright => ?_
  refine emit_yields (h₂.ready hr₁).sound ?_ (hne left right)
  simpa [hop] using ⟨h₂.usable hleft, hright⟩

theorem lowerOperator_yields (hr : g.Ready) (op : BinaryOperator) (ty : Ty) {lhs rhs : ValueId}
    (hl : g.Usable lhs) (hrhs : g.Usable rhs) :
    Yields (Lowering.lowerOperator op ty lhs rhs) g fun v g' => g'.Usable v := by
  unfold Lowering.lowerOperator
  cases op.class with
  | arith op =>
    refine (lowerType_yields hr ty).bind fun target g' ho _ => ?_
    exact joined_yields (ho.ready hr) (ho.usable hl) (ho.usable hrhs) target (.arith op) (fun _ _ => rfl) (by simp)
  | cmp op =>
    refine yields_typeOf_bind fun leftTy _ => yields_typeOf_bind fun rightTy _ => yields_get_bind ?_
    exact joined_yields hr hl hrhs _ (.cmp op) (fun _ _ => rfl) (by simp)
  | logic op => exact joined_yields hr hl hrhs _ (.logic op) (fun _ _ => rfl) (by simp)

theorem finishCall_yields (hr : g.Ready) (name : String) {args : List ValueId} (ha : ∀ v ∈ args, g.Usable v) :
    Yields (Lowering.finishCall name args) g fun v g' => g'.Usable v := by
  unfold Lowering.finishCall
  have call : Yields (Lowering.emit (.call name args)) g fun v g' => g'.Usable v := emit_yields hr.sound ha (by simp)
  refine call.bind fun result g₁ h₁ hres => ?_
  have hr₁ := h₁.ready hr
  split
  · exact yields_pure hr₁ hres
  · refine yields_typeOf_bind fun ty hty => ?_
    split
    · refine (alloca_yields hr₁.sound (hr₁.sound.wellTyped.values hty)).bind fun slot g₂ h₂ hslot => ?_
      have hr₂ := h₂.ready hr₁
      refine (store_yields hr₂ hslot (h₂.usable hres)).bind fun _ g₃ h₃ _ => ?_
      exact yields_pure (h₃.ready hr₂) (h₃.usable hslot)
    · exact yields_pure hr₁ hres

theorem resultSlot_yields (hr : g.Ready) (ty : Ty) :
    Yields (Lowering.resultSlot ty) g fun slot g' => ∀ v ∈ slot, g'.Usable v := by
  unfold Lowering.resultSlot
  refine (lowerType_yields hr ty).bind fun lowered g₁ h₁ hk => ?_
  have hr₁ := h₁.ready hr
  split
  · exact yields_pure hr₁ (by simp)
  · refine (alloca_yields hr₁.sound hk.1).bind fun slot g₂ h₂ hslot => ?_
    exact yields_pure (h₂.ready hr₁) (by simpa using hslot)

/-! ## Construction -/

theorem memberIndex_yields (hr : g.Ready) (index : Nat) :
    Yields (Lowering.memberIndex index) g fun _ _ => True := by
  unfold Lowering.memberIndex
  split
  · exact yields_pure hr trivial
  · exact yields_fault

theorem enterMember_yields (hr : g.Ready) {memory : ValueId} (hm : g.Usable memory) (index : Nat) :
    Yields (Lowering.enterMember memory index) g fun v g' => g'.Usable v := by
  unfold Lowering.enterMember
  refine (constant_yields hr (fits_i64 _)).bind fun d g₁ h₁ hd => ?_
  have hr₁ := h₁.ready hr
  refine (emit_yields hr₁.sound ?_ (by simp)).bind fun _ g₂ h₂ _ => ?_
  · simpa [Operation.operands] using ⟨h₁.usable hm, hd⟩
  have hr₂ := h₂.ready hr₁
  refine (memberIndex_yields hr₂ index).bind fun i g₃ h₃ _ => ?_
  refine emit_yields (h₃.ready hr₂).sound ?_ (by simp)
  simpa [Operation.operands] using h₃.usable (h₂.usable (h₁.usable hm))

theorem enterPath_yields (path : List Nat) : ∀ {g : Site}, g.Ready → ∀ {memory : ValueId}, g.Usable memory →
    Yields (Lowering.enterPath memory path) g fun v g' => g'.Usable v := by
  induction path with
  | nil => exact fun hr _ hm => yields_pure hr hm
  | cons index path ih =>
    intro g hr memory hm
    exact (enterMember_yields hr hm index).bind fun payload g₁ h₁ hp => ih (h₁.ready hr) hp

theorem prepare_yields (hr : g.Ready) {memory : ValueId} (hm : g.Usable memory) (plan : FillPlan) :
    Yields (Lowering.prepare memory plan) g fun site g' => g'.Usable site.memory := by
  unfold Lowering.prepare
  refine (enterPath_yields plan.path hr hm).bind fun v g₁ h₁ hv => ?_
  cases plan.goal with
  | impossible fault => exact yields_fault
  | whole | memberwise => exact yields_pure (h₁.ready hr) hv

theorem storeArgument_yields (hr : g.Ready) {site : FillSite} (hm : g.Usable site.memory) (index : Nat)
    {v : ValueId} (hv : g.Usable v) : Yields (Lowering.storeArgument site index v) g fun _ _ => True := by
  unfold Lowering.storeArgument
  split
  · refine (memberIndex_yields hr index).bind fun i g₁ h₁ _ => ?_
    have hr₁ := h₁.ready hr
    refine (emit_yields hr₁.sound ?_ (by simp)).bind fun slot g₂ h₂ hslot => ?_
    · simpa [Operation.operands] using h₁.usable hm
    exact store_yields (h₂.ready hr₁) hslot (h₂.usable (h₁.usable hv))
  · exact store_yields hr hm hv

/-! ## Matches -/

theorem testMember_yields (hr : g.Ready) {discriminant : ValueId} (hd : g.Usable discriminant) (index : Nat) :
    Yields (Lowering.testMember discriminant index) g fun v g' => g'.Usable v := by
  unfold Lowering.testMember
  refine (constant_yields hr (fits_i64 _)).bind fun position g₁ h₁ hp => ?_
  refine emit_yields (h₁.ready hr).sound ?_ (by simp)
  simpa [Operation.operands] using ⟨h₁.usable hd, hp⟩

/-- The blocks of the cases are made where control is, and nothing else is. -/
theorem caseTargets_along (indices : List (List Nat)) : ∀ {g : Site}, g.Ready → ∀ {targets s'},
    Gives (Lowering.caseTargets indices) g.state targets s' →
    ∃ g', g'.state = s' ∧ Along g g' ∧ g'.here = g.here ∧ targets.length = indices.length ∧
      (targets.map CaseTarget.block).Nodup ∧
      (∀ t ∈ targets, g'.known t.block = g.here ∧ ¬ g.state.function.Pending t.block) ∧
      ∀ c, g'.state.function.Pending c ↔ g.state.function.Pending c ∨ c ∈ targets.map CaseTarget.block := by
  induction indices with
  | nil =>
    intro g hr targets s' h
    simp only [Lowering.caseTargets, gives_pure] at h
    obtain ⟨rfl, rfl⟩ := h
    exact ⟨g, rfl, .refl hr.isOpen, rfl, rfl, by simp, by simp, by simp⟩
  | cons is rest ih =>
    intro g hr targets s' h
    simp only [Lowering.caseTargets, gives_bind, gives_pure] at h
    obtain ⟨b, s₁, hb, ts, _, hts, rfl, rfl⟩ := h
    obtain ⟨g₁, rfl, h₁, -, hhere₁, hk₁, hnew, hp₁⟩ := newBlock_along hr hb
    obtain ⟨g₂, rfl, h₂, hhere₂, hlen, hnodup, hk₂, hp₂⟩ := ih (h₁.ready hr) hts
    have hb₁ : g₁.state.function.Pending b := (hp₁ b).2 (Or.inr rfl)
    refine ⟨g₂, rfl, h₁.trans h₂, hhere₂.trans hhere₁, by simp [hlen], ?_, ?_, ?_⟩
    · rw [List.map_cons, List.nodup_cons]
      refine ⟨?_, hnodup⟩
      intro hm
      obtain ⟨t, ht, hbt⟩ := List.mem_map.1 hm
      exact (hk₂ t ht).2 (hbt ▸ hb₁)
    · intro t ht
      rcases List.mem_cons.1 ht with rfl | ht
      · exact ⟨by rw [h₂.trace.known_eq hb₁.1, hk₁], hnew⟩
      · obtain ⟨hk, hn⟩ := hk₂ t ht
        exact ⟨hk.trans hhere₁, fun hp => hn (h₁.waiting hp)⟩
    · intro c
      rw [hp₂, hp₁]
      simp [or_assoc]

/-- The dispatch of a match leaves for the blocks it tests for. -/
theorem dispatch_leaves {fatal : BlockId} {discriminant : ValueId} (tests : List (Nat × BlockId)) :
    ∀ {g : Site}, g.Ready → g.Usable discriminant → g.CanReach fatal → (∀ p ∈ tests, g.CanReach p.2) →
    ∀ {a s'}, Gives (Lowering.dispatch discriminant fatal tests) g.state a s' →
    ∃ g', g'.state = s' ∧ Leaves g g' := by
  induction tests with
  | nil =>
    intro g hr _ hf _ a s' h
    exact branchTo_leaves hr hf h
  | cons p rest ih =>
    obtain ⟨index, block⟩ := p
    intro g hr hd hf ht a s' h
    cases rest with
    | nil =>
      simp only [Lowering.dispatch, gives_bind] at h
      obtain ⟨c, s₁, h₁, h₂⟩ := h
      obtain ⟨g₁, rfl, ho, hc⟩ := testMember_yields hr hd index c s₁ h₁
      obtain ⟨g₂, rfl, hl⟩ := branchOn_leaves hc (ho.canReach (ht _ (List.mem_cons_self ..))) (ho.canReach hf) h₂
      exact ⟨g₂, rfl, ho.leaves hl⟩
    | cons q rest =>
      simp only [Lowering.dispatch, gives_bind] at h
      obtain ⟨c, s₁, h₁, next, s₂, h₂, _, s₃, h₃, _, s₄, h₄, h₅⟩ := h
      obtain ⟨g₁, rfl, ho₁, hc⟩ := testMember_yields hr hd index c s₁ h₁
      have hr₁ := ho₁.ready hr
      obtain ⟨g₂, rfl, h₁₂, -, hhere, hk, hnew, hp₂⟩ := newBlock_along hr₁ h₂
      have hnext : g₂.CanReach next := ⟨(hp₂ next).2 (Or.inr rfl), by rw [hk, hhere]⟩
      obtain ⟨g₃, rfl, hl⟩ := branchOn_leaves (h₁₂.usable hc)
        (h₁₂.canReach (ho₁.canReach (ht _ (List.mem_cons_self ..)))) hnext h₃
      have hleft : Left g₁ g₃ := h₁₂.left hl.toLeft
      obtain ⟨g₄, rfl, ho₄, -⟩ := rejoin hr₁ hleft (hl.waiting hnext.1) hnew
        (by rw [hl.trace.known_eq hnext.1.1, hk]) (fun hb hne => ((hp₂ _).1 (hl.settled hb)).resolve_right hne) h₄
      have ho := ho₁.trans ho₄
      obtain ⟨g₅, rfl, hl₅⟩ := ih (ho.ready hr) (ho.usable hd) (ho.canReach hf)
        (fun p hp => ho.canReach (ht p (List.mem_cons_of_mem _ hp))) h₅
      exact ⟨g₅, rfl, ho.leaves hl₅⟩

theorem coverage_length {sum : Ty} {cases : List MatchCase} :
    ∀ {covered indices}, coverage sum covered cases = .ok indices → indices.length = cases.length := by
  induction cases with
  | nil =>
    rintro covered indices ⟨⟩
    rfl
  | cons c cs ih =>
    intro covered indices h
    simp only [coverage, except_bind_eq_ok] at h
    obtain ⟨is, -, rest, hrest, h⟩ := h
    cases h
    simp [ih hrest]

theorem mem_tests {targets : List CaseTarget} {p : Nat × BlockId} (h : p ∈ Lowering.tests targets) :
    ∃ t ∈ targets, p.2 = t.block := by
  obtain ⟨t, ht, hp⟩ := List.mem_flatMap.1 h
  obtain ⟨i, -, rfl⟩ := List.mem_map.1 hp
  exact ⟨t, ht, rfl⟩

/-- Names the payload of a case, if it has a name. -/
def bindCase (subject : ValueId) (indices : List Nat) (binding : Option String) (span : Span) : Lowering Unit :=
  match binding with
  | some name => Lowering.bindPayload subject indices name span
  | none => pure ()

/-- Puts the value of a case in the slot of the match, if it has one. -/
def storeCase (slot : Option ValueId) (v : ValueId) : Lowering Unit :=
  match slot with
  | some slot => Lowering.store slot v
  | none => pure ()

theorem lowerCases_cons (subject : ValueId) (slot : Option ValueId) (join : BlockId) (target : CaseTarget)
    (targets : List CaseTarget) (pattern : Option Ty) (binding : Option String) (body : Expr)
    (symbols : SymbolTable) (span : Span) (cases : List MatchCase) :
    Lowering.lowerCases subject slot join (target :: targets) (⟨pattern, binding, body, symbols, span⟩ :: cases) = (do
      Lowering.startBlock target.block
      Lowering.inScope do
        bindCase subject target.indices binding span
        let v ← Lowering.lowerExpr body
        storeCase slot v
      Lowering.branchTo join
      Lowering.lowerCases subject slot join targets cases) := by
  rw [Lowering.lowerCases]
  cases binding <;> cases slot <;> simp [bindCase, storeCase]

/-- A case starts with its payload in scope, under its name if it has one. -/
theorem bindCase_enters (hr : g.Ready) {subject : ValueId} (hs : g.Usable subject) {indices : List Nat}
    {binding : Option String} {span : Span} {a : Unit} {s' : LoweringState}
    (h : Gives (bindCase subject indices binding span) (g.withScopes ([] :: g.state.scopes)).state a s') :
    ∃ g' : Site, g'.state = s' ∧ g'.Ready ∧ Onward g (g'.withScopes g.state.scopes) ∧
      g'.state.scopes.tail = g.state.scopes := by
  have hr₀ : (g.withScopes ([] :: g.state.scopes)).Ready := hr.withScopes (by simpa using hr.slots)
  cases binding with
  | none =>
    obtain ⟨-, rfl⟩ := gives_pure.1 h
    exact ⟨_, rfl, hr₀, .refl hr.isOpen, rfl⟩
  | some name =>
    simp only [bindCase, Lowering.bindPayload] at h
    split at h
    · next index =>
      simp only [gives_ite, not_gives_fault, and_false, or_false, gives_bind] at h
      obtain ⟨-, payload, s₁, h₁, h₂⟩ := h
      have hs₀ : (g.withScopes ([] :: g.state.scopes)).Usable subject := hs
      obtain ⟨g₁, rfl, ho, hp⟩ :=
        emit_yields hr₀.sound (by simpa [Operation.operands] using hs₀) (by simp) payload s₁ h₁
      have hscopes : g₁.state.scopes = [] :: g.state.scopes := ho.scopes
      have hr₁ := ho.ready hr₀
      simp only [Lowering.define, gives_modify, hscopes] at h₂
      refine ⟨g₁.withScopes ([(name, payload)] :: g.state.scopes), h₂, ?_, ho.withScopes g.state.scopes, rfl⟩
      refine hr₁.withScopes ?_
      intro scope hscope p hpm
      rcases List.mem_cons.1 hscope with rfl | hscope
      · obtain rfl := List.mem_singleton.1 hpm
        exact hp
      · exact hr₁.slots scope (by rw [hscopes]; exact List.mem_cons_of_mem _ hscope) p hpm
    · exact absurd h not_gives_fail

theorem storeCase_yields (hr : g.Ready) {slot : Option ValueId} (hslot : ∀ v ∈ slot, g.Usable v) {v : ValueId}
    (hv : g.Usable v) : Yields (storeCase slot v) g fun _ _ => True := by
  cases slot with
  | none => exact yields_pure hr trivial
  | some slot => exact store_yields hr (hslot slot rfl) hv

/-- One case of a match, in a scope of its own. -/
theorem caseBody_yields (hr : g.Ready) {subject : ValueId} (hs : g.Usable subject) {slot : Option ValueId}
    (hslot : ∀ v ∈ slot, g.Usable v) (indices : List Nat) (binding : Option String) (span : Span) {body : Expr}
    (hbody : ∀ {g : Site}, g.Ready → Yields (Lowering.lowerExpr body) g fun v g' => g'.Usable v) :
    Yields (Lowering.inScope do
      bindCase subject indices binding span
      let v ← Lowering.lowerExpr body
      storeCase slot v) g fun _ _ => True := by
  intro a s' h
  obtain ⟨t, ht, rfl⟩ := Lowering.gives_inScope.1 h
  obtain ⟨_, s₁, h₁, ht⟩ := gives_bind.1 ht
  obtain ⟨v, s₂, h₂, h₃⟩ := gives_bind.1 ht
  obtain ⟨g₁, rfl, hr₁, ho₁, htail⟩ := bindCase_enters hr hs h₁
  obtain ⟨g₂, rfl, ho₂, hv⟩ := hbody hr₁ v s₂ h₂
  have hslot₂ : ∀ w ∈ slot, g₂.Usable w := fun w hw =>
    (hslot w hw).mono (ho₁.trace.function_grows.trans ho₂.trace.function_grows) (ho₁.here.trans ho₂.here)
  obtain ⟨g₃, rfl, ho₃, -⟩ := storeCase_yields (ho₂.ready hr₁) hslot₂ hv a t h₃
  have ho := ho₂.trans ho₃
  refine ⟨g₃.withScopes g.state.scopes, ?_, ho₁.trans (ho.withScopes _), trivial⟩
  simp only [withScopes, ho.scopes, htail]

/-- The cases of a match whose blocks were made at `o`: each is gone to from `o` and leaves for `join`. -/
def CasesLeave (cases : List MatchCase) : Prop :=
  ∀ {o g : Site} {targets : List CaseTarget} {subject : ValueId} {slot : Option ValueId} {join : BlockId} {a : Unit}
    {s' : LoweringState}, o.Ready → o.Usable subject → (∀ v ∈ slot, o.Usable v) → Left o g →
    targets.length = cases.length → (targets.map CaseTarget.block).Nodup →
    (∀ t ∈ targets, g.state.function.Pending t.block ∧ ¬ o.state.function.Pending t.block ∧
      g.known t.block = o.here ∧ t.block ≠ join) →
    g.state.function.Pending join → g.known join = o.here →
    Gives (Lowering.lowerCases subject slot join targets cases) g.state a s' →
    ∃ g', g'.state = s' ∧ Left o g' ∧ Trace g g' ∧
      ∀ c, g'.state.function.Pending c ↔ g.state.function.Pending c ∧ c ∉ targets.map CaseTarget.block

/-- A match goes out into its cases and comes back at its join. -/
theorem match_yields (hr : g.Ready) {subject : ValueId} (hs : g.Usable subject) {slot : Option ValueId}
    (hslot : ∀ v ∈ slot, g.Usable v) {indices : List (List Nat)} {cases : List MatchCase}
    (hlen : indices.length = cases.length) (hcases : CasesLeave cases) :
    Yields (do
      let discriminant ← Lowering.emit (.getUnionIdx subject)
      let targets ← Lowering.caseTargets indices
      let fatal ← Lowering.newBlock
      let join ← Lowering.newBlock
      Lowering.dispatch discriminant fatal (Lowering.tests targets)
      Lowering.lowerCases subject slot join targets cases
      Lowering.startBlock fatal
      Lowering.leave .unreachable
      Lowering.startBlock join
      match slot with
      | some slot => Lowering.load slot
      | none => return Function.nilValue) g fun v g' => g'.Usable v := by
  refine (emit_yields hr.sound (by simpa [Operation.operands] using hs) (by simp)).bind fun d g₁ h₁ hd => ?_
  intro v s' h
  have hr₁ := h₁.ready hr
  simp only [gives_bind] at h
  obtain ⟨targets, _, h₂, fatal, _, h₃, join, _, h₄, _, _, h₅, _, _, h₆, _, _, h₇, _, _, h₈, _, _, h₉, h⟩ := h
  -- the blocks are made, and control is still in the block of the scrutinee
  obtain ⟨g₂, rfl, a₂, here₂, hlen₂, hnodup, hk₂, hp₂⟩ := caseTargets_along indices hr₁ h₂
  have hr₂ := a₂.ready hr₁
  obtain ⟨g₃, rfl, a₃, -, here₃, hk₃, hn₃, hp₃⟩ := newBlock_along hr₂ h₃
  have hr₃ := a₃.ready hr₂
  obtain ⟨g₄, rfl, a₄, -, here₄, hk₄, hn₄, hp₄⟩ := newBlock_along hr₃ h₄
  have hr₄ := a₄.ready hr₃
  have a₁₃ := a₂.trans a₃
  have a₁₄ := a₁₃.trans a₄
  have here₁₄ : g₄.here = g₁.here := here₄.trans (here₃.trans here₂)
  have hfatal : g₃.state.function.Pending fatal := (hp₃ fatal).2 (Or.inr rfl)
  have hjoin : g₄.state.function.Pending join := (hp₄ join).2 (Or.inr rfl)
  have htarget : ∀ t ∈ targets, g₂.state.function.Pending t.block := fun t ht =>
    (hp₂ _).2 (Or.inr (List.mem_map_of_mem ht))
  have kfatal : g₄.known fatal = g₁.here := by rw [a₄.trace.known_eq hfatal.1, hk₃, here₂]
  have kjoin : g₄.known join = g₁.here := by rw [hk₄, here₃, here₂]
  have ktarget : ∀ t ∈ targets, g₄.known t.block = g₁.here := fun t ht => by
    rw [(a₃.trans a₄).trace.known_eq (htarget t ht).1, (hk₂ t ht).1]
  -- the dispatch leaves for the cases
  obtain ⟨g₅, rfl, l₅⟩ := dispatch_leaves (Lowering.tests targets) hr₄ (a₁₄.usable hd)
    ⟨a₄.waiting hfatal, by rw [kfatal, here₁₄]⟩ (fun p hp => by
      obtain ⟨t, ht, hpt⟩ := mem_tests hp
      rw [hpt]
      exact ⟨a₄.waiting (a₃.waiting (htarget t ht)), by rw [ktarget t ht, here₁₄]⟩) h₅
  have l₁₅ : Left g₁ g₅ := a₁₄.left l₅.toLeft
  have kept : ∀ {b}, g₄.state.function.Pending b → g₅.known b = g₄.known b := fun hb => l₅.trace.known_eq hb.1
  -- each case comes to the join
  obtain ⟨g₆, rfl, l₁₆, t₅₆, hp₆⟩ := hcases hr₁ (h₁.usable hs) (fun v hv => h₁.usable (hslot v hv)) l₁₅
    (hlen₂.trans hlen) hnodup (fun t ht => by
      have hp := a₃.waiting (htarget t ht)
      refine ⟨l₅.waiting (a₄.waiting hp), (hk₂ t ht).2, ?_, ?_⟩
      · rw [kept (a₄.waiting hp), ktarget t ht]
      · rintro rfl
        exact hn₄ hp) (l₅.waiting hjoin) (by rw [kept hjoin, kjoin]) h₆
  have fatal_not_target : fatal ∉ targets.map CaseTarget.block := by
    intro hm
    obtain ⟨t, ht, rfl⟩ := List.mem_map.1 hm
    exact hn₃ (htarget t ht)
  have join_not_target : join ∉ targets.map CaseTarget.block := by
    intro hm
    obtain ⟨t, ht, rfl⟩ := List.mem_map.1 hm
    exact hn₄ (a₃.waiting (htarget t ht))
  have hfatal₆ : g₆.state.function.Pending fatal := (hp₆ _).2 ⟨l₅.waiting (a₄.waiting hfatal), fatal_not_target⟩
  have hjoin₆ : g₆.state.function.Pending join := (hp₆ _).2 ⟨l₅.waiting hjoin, join_not_target⟩
  have kept₆ : ∀ {b}, g₄.state.function.Pending b → g₆.known b = g₄.known b := fun hb =>
    (l₅.trace.trans t₅₆).known_eq hb.1
  -- the block that nothing reaches
  obtain ⟨g₇, rfl, a₇, t₆₇, -, hp₇⟩ := arrive hr₁ l₁₆ hfatal₆ (fun hp => hn₃ (a₂.waiting hp))
    (by rw [kept₆ (a₄.waiting hfatal), kfatal]) h₇
  obtain ⟨g₈, rfl, l₈⟩ := leave_leaves h₈ (by simp) (by simp [Exit.targets]) (by simp [Exit.conditions])
  have hne : join ≠ fatal := by
    rintro rfl
    exact hn₄ hfatal
  have hjoin₈ : g₈.state.function.Pending join := l₈.waiting ((hp₇ _).2 ⟨hjoin₆, hne⟩)
  -- the join
  obtain ⟨g₉, rfl, o₉, -⟩ := rejoin hr₁ (a₇.left l₈.toLeft) hjoin₈ (fun hp => hn₄ (a₁₃.waiting hp))
    (by rw [(t₆₇.trans l₈.trace).known_eq hjoin₆.1, kept₆ hjoin, kjoin]) (fun {b} hb hnj => by
      obtain ⟨hb, hnf⟩ := (hp₇ b).1 (l₈.settled hb)
      obtain ⟨hb, hnt⟩ := (hp₆ b).1 hb
      have hb := ((hp₄ b).1 (l₅.settled hb)).resolve_right hnj
      exact ((hp₂ b).1 (((hp₃ b).1 hb).resolve_right hnf)).resolve_right hnt) h₉
  have hr₉ := o₉.ready hr₁
  cases slot with
  | some slot =>
    obtain ⟨g', rfl, ho, hv⟩ := load_yields hr₉ (o₉.usable (h₁.usable (hslot slot rfl))) v s' h
    exact ⟨g', rfl, o₉.trans ho, hv⟩
  | none =>
    obtain ⟨rfl, rfl⟩ := gives_pure.1 h
    refine ⟨g₉, rfl, o₉, .nil, hr₉.sound.coherent.absent, ?_⟩
    rintro i ⟨⟩

mutual

/-- **Lowering an expression goes onward** to where its value can be read. -/
theorem lowerExpr_yields : (e : Expr) → ∀ {g : Site}, g.Ready →
    Yields (Lowering.lowerExpr e) g fun v g' => g'.Usable v
  | .constant c ty _, _, hr => by
    rw [Lowering.lowerExpr]
    exact lowerConstant_yields hr c ty
  | .text content _ _, _, hr => by
    rw [Lowering.lowerExpr]
    exact lowerLiteral_yields hr content
  | .ident name _ _, _, hr => by
    rw [Lowering.lowerExpr]
    exact yields_slotOf_bind hr fun slot hs => load_yields hr hs
  | .binary op left right ty _, _, hr => by
    rw [Lowering.lowerExpr]
    refine (lowerExpr_yields left hr).bind fun lhs g₁ h₁ hl => ?_
    have hr₁ := h₁.ready hr
    refine (lowerExpr_yields right hr₁).bind fun rhs g₂ h₂ hrhs => ?_
    exact lowerOperator_yields (h₂.ready hr₁) op ty (h₂.usable hl) hrhs
  | .call name [arg] callee true ty _, g, hr => by
    rw [Lowering.lowerExpr]
    refine (lowerType_yields hr ty).bind fun target g₁ h₁ _ => ?_
    have hr₁ := h₁.ready hr
    refine (lowerExpr_yields arg hr₁).bind fun v g₂ h₂ hv => ?_
    exact coerce_yields (h₂.ready hr₁) hv target
  | .call name [] callee true ty _, g, hr => by
    simp only [Lowering.lowerExpr]
    exact yields_fault
  | .call name (_ :: _ :: _) callee true ty _, g, hr => by
    simp only [Lowering.lowerExpr]
    exact yields_fault
  | .call name args callee false ty _, g, hr => by
    rw [Lowering.lowerExpr.eq_def]
    simp only [Bool.false_eq_true, if_false]
    split
    · refine (lowerType_yields hr ty).bind fun lowered g₁ h₁ hk => ?_
      have hr₁ := h₁.ready hr
      refine (alloca_yields hr₁.sound hk.1).bind fun slot g₂ h₂ hslot => ?_
      have hr₂ := h₂.ready hr₁
      refine (prepare_yields hr₂ hslot _).bind fun site g₃ h₃ hsite => ?_
      have hr₃ := h₃.ready hr₂
      refine (storeAll_yields args hr₃ hsite 0).bind fun _ g₄ h₄ _ => ?_
      exact yields_pure (h₄.ready hr₃) (h₄.usable (h₃.usable hslot))
    · refine (lowerArguments_yields args hr name callee args.length 0).bind fun values g₁ h₁ hv => ?_
      exact finishCall_yields (h₁.ready hr) name hv
  | .choice scrutinee cases ty _, g, hr => by
    rw [Lowering.lowerExpr]
    split
    · split
      · exact fun _ _ h => absurd h not_gives_fail
      · next indices hcov =>
        refine (lowerExpr_yields scrutinee hr).bind fun subject g₁ h₁ hs => ?_
        have hr₁ := h₁.ready hr
        refine (resultSlot_yields hr₁ ty).bind fun slot g₂ h₂ hslot => ?_
        exact match_yields (h₂.ready hr₁) (h₂.usable hs) hslot (coverage_length hcov) (lowerCases_leave cases)
    · intro v s' h
      simp [Lowering.functionName, gives_bind] at h

theorem storeAll_yields : (args : List Expr) → ∀ {g : Site}, g.Ready → ∀ {site : FillSite}, g.Usable site.memory →
    ∀ index, Yields (Lowering.storeAll site index args) g fun _ _ => True
  | [], g, hr, _, _, _ => by
    rw [Lowering.storeAll]
    exact yields_pure hr trivial
  | arg :: args, g, hr, site, hs, index => by
    rw [Lowering.storeAll]
    refine (lowerExpr_yields arg hr).bind fun v g₁ h₁ hv => ?_
    have hr₁ := h₁.ready hr
    refine (storeArgument_yields hr₁ (h₁.usable hs) index hv).bind fun _ g₂ h₂ _ => ?_
    exact storeAll_yields args (h₂.ready hr₁) (h₂.usable (h₁.usable hs)) (index + 1)

theorem lowerArguments_yields : (args : List Expr) → ∀ {g : Site}, g.Ready → ∀ name callee total position,
    Yields (Lowering.lowerArguments name callee total position args) g fun vs g' => ∀ v ∈ vs, g'.Usable v
  | [], g, hr, _, _, _, _ => by
    rw [Lowering.lowerArguments]
    exact yields_pure hr (by simp)
  | arg :: args, g, hr, name, callee, total, position => by
    rw [Lowering.lowerArguments]
    refine yields_need_bind fun param _ => ?_
    refine (lowerType_yields hr param).bind fun lowered g₁ h₁ hk => ?_
    have hr₁ := h₁.ready hr
    have rest : ∀ v g₂, Onward g₁ g₂ → g₂.Usable v →
        Yields (do
          let vs ← Lowering.lowerArguments name callee total (position + 1) args
          return v :: vs) g₂ fun vs g' => ∀ v ∈ vs, g'.Usable v := by
      intro v g₂ h₂ hv
      have hr₂ := h₂.ready hr₁
      refine (lowerArguments_yields args hr₂ name callee total (position + 1)).bind fun vs g₃ h₃ hvs => ?_
      exact yields_pure (h₃.ready hr₂) (by simpa using ⟨h₃.usable hv, hvs⟩)
    dsimp only
    split
    · refine (alloca_yields hr₁.sound hk.1).bind fun slot g₂ h₂ hslot => ?_
      have hr₂ := h₂.ready hr₁
      refine (prepare_yields hr₂ hslot _).bind fun site g₃ h₃ hsite => ?_
      have hr₃ := h₃.ready hr₂
      refine (lowerExpr_yields arg hr₃).bind fun v g₄ h₄ hv => ?_
      have hr₄ := h₄.ready hr₃
      refine (storeArgument_yields hr₄ (h₄.usable hsite) 0 hv).bind fun _ g₅ h₅ _ => ?_
      have ho := h₂.trans (h₃.trans (h₄.trans h₅))
      simpa using rest slot g₅ ho (h₅.usable (h₄.usable (h₃.usable hslot)))
    · refine (lowerExpr_yields arg hr₁).bind fun v g₂ h₂ hv => ?_
      refine (coerce_yields (h₂.ready hr₁) hv _).bind fun w g₃ h₃ hw => ?_
      exact rest w g₃ (h₂.trans h₃) hw

theorem lowerCases_leave : (cases : List MatchCase) → CasesLeave cases
  | [], o, g, targets, _, _, _, _, _, _, _, _, hl, hlen, _, _, _, _, h => by
    obtain rfl := List.length_eq_zero_iff.1 hlen
    simp only [Lowering.lowerCases, gives_pure] at h
    exact ⟨g, h.2, hl, .refl, by simp⟩
  | ⟨pattern, binding, body, symbols, span⟩ :: cases, o, g, targets, subject, slot, join, a, s', hr, hs, hslot, hl,
      hlen, hnodup, ht, hj, hjk, h => by
    obtain _ | ⟨target, targets⟩ := targets
    · simp at hlen
    rw [lowerCases_cons] at h
    obtain ⟨hb, hnew, hk, hne⟩ := ht target (List.mem_cons_self ..)
    obtain ⟨hnot, hnodup⟩ := List.nodup_cons.1 hnodup
    obtain ⟨g₁, h, -, l₁, t₁, hp₁⟩ := arm_left hr hl hb hnew hk hne hj hjk (fun {g₁ a s'} a₁ hx => by
      obtain ⟨g₂, rfl, o₂, -⟩ := caseBody_yields (a₁.ready hr) (a₁.usable hs) (fun v hv => a₁.usable (hslot v hv))
        target.indices binding span (lowerExpr_yields body) a s' hx
      exact ⟨g₂, rfl, Or.inl o₂⟩) h
    have hk₁ : ∀ {b}, g.state.function.Pending b → g₁.known b = g.known b := fun hb => t₁.known_eq hb.1
    obtain ⟨g₂, rfl, l₂, t₂, hp₂⟩ := lowerCases_leave cases hr hs hslot l₁ (by simpa using hlen) hnodup
      (fun t htm => by
        obtain ⟨htb, htn, htk, htj⟩ := ht t (List.mem_cons_of_mem _ htm)
        refine ⟨(hp₁ _).2 ⟨htb, ?_⟩, htn, by rw [hk₁ htb, htk], htj⟩
        intro he
        exact hnot (he ▸ List.mem_map_of_mem htm)) ((hp₁ _).2 ⟨hj, hne.symm⟩) (by rw [hk₁ hj, hjk]) h
    refine ⟨g₂, rfl, l₂, t₁.trans t₂, fun c => ?_⟩
    rw [hp₂, hp₁]
    simp [and_assoc]

end

/-- An expression whose value is made to fit a type. -/
theorem coerced_yields (hr : g.Ready) (e : Expr) (target : LoweredType) :
    Yields (do
      let v ← Lowering.lowerExpr e
      Lowering.coerce v target) g fun v g' => g'.Usable v :=
  (lowerExpr_yields e hr).bind fun _ _ h₁ hv => coerce_yields (h₁.ready hr) hv target

end Site

end BlockForm
