import BlockForm.Proofs.Region

/-!
# BlockForm.Proofs.Branching — leaving a block and arriving in another

Where control branches, blocks are made first, then the current block gets its exit, and the blocks are placed one
after another.  `Left o g` says that control has left the place `o` and is nowhere yet; `arrive` goes on in a block
that was made at `o`, where everything known at `o` is known.
-/

namespace BlockForm

open Action

theorem LoweredType.eq_bool_of_isBool {ty : LoweredType} (h : ty.isBool = true) : ty = .elementary .bool := by
  obtain ⟨kind, pointer⟩ := ty
  cases kind with
  | elementary e => simp_all [isBool, elementary?, elementary]
  | composite id => simp [isBool, elementary?] at h

namespace Site

variable {o g g' : Site}

/-! ## Making blocks -/

/-- The current block is as it was. -/
structure Stays (g g' : Site) : Prop where
  current : g'.state.current = g.state.current
  block : g'.state.function.block? g'.state.current = g.state.function.block? g.state.current

theorem Stays.trans {g'' : Site} (h₁ : Stays g g') (h₂ : Stays g' g'') : Stays g g'' :=
  ⟨h₂.current.trans h₁.current, h₂.block.trans h₁.block⟩

/-- A block made here can be gone to from here on. -/
theorem newBlock_along (hr : g.Ready) {b : BlockId} {s' : LoweringState} (h : Gives Lowering.newBlock g.state b s') :
    ∃ g', g'.state = s' ∧ Along g g' ∧ Stays g g' ∧ g'.here = g.here ∧ g'.known b = g.here ∧
      ¬ g.state.function.Pending b ∧ ∀ c, g'.state.function.Pending c ↔ g.state.function.Pending c ∨ c = b := by
  obtain ⟨f, hf, rfl⟩ := Lowering.gives_inFunction.1 h
  obtain ⟨-, -, -, -, rfl, rfl⟩ := Function.newBlock_gives hf
  have hstep : Step g _ := .newBlock (s := g.state) (k := g.known)
  have hids : ∀ c, c ∈ g.state.function.withLabel.blockIds ↔ c ∈ g.state.function.blockIds := fun _ => .rfl
  have hsize : g.state.function.withLabel.blocks.size = g.state.function.blocks.size + 1 := by
    simp [Function.withLabel]
  have hnew : g.state.function.nextBlock ∉ g.state.function.blockIds := fun hm =>
    Nat.lt_irrefl _ (hr.sound.laid.inRange hm)
  have hpend : ∀ c, g.state.function.withLabel.Pending c ↔
      g.state.function.Pending c ∨ c = g.state.function.nextBlock := by
    intro c
    rw [Function.Pending, Function.Pending, hids, hsize]
    constructor
    · rintro ⟨hlt, hc⟩
      by_cases hcs : c.index = g.state.function.blocks.size
      · exact Or.inr (by cases c; simpa [Function.nextBlock] using hcs)
      · exact Or.inl ⟨by omega, hc⟩
    · rintro (⟨hlt, hc⟩ | rfl)
      · exact ⟨by omega, hc⟩
      · exact ⟨by simp [Function.nextBlock], hnew⟩
  obtain ⟨x, hx, hopen⟩ := hr.isOpen
  have hcur : g.state.current ≠ g.state.function.nextBlock := by
    intro he
    rw [he] at hx
    exact Nat.lt_irrefl _ (Function.block?_lt hx)
  have hhere : here ⟨{ g.state with function := g.state.function.withLabel },
      Function.update g.known g.state.function.nextBlock g.here⟩ = g.here := by
    simp only [here, Function.held, Function.update_of_ne hcur, Function.block?_withLabel_eq, if_neg hcur]
  have hstays : g.state.function.withLabel.block? g.state.current = g.state.function.block? g.state.current := by
    rw [hx, Function.block?_withLabel hx]
  exact ⟨_, rfl, ⟨.single hstep, ⟨x, Function.block?_withLabel hx, hopen⟩, hhere.ge,
      fun hb => (hpend _).2 (Or.inl hb), rfl⟩,
    ⟨rfl, hstays⟩, hhere, Function.update_self _ _ _, fun hb => Nat.lt_irrefl _ hb.1, hpend⟩

/-! ## Leaving -/

/-- Control has left the place `o`; the blocks that waited there still do. -/
structure Left (o g : Site) : Prop where
  trace : Trace o g
  closed : g.state.function.IsClosed g.state.current
  waiting : ∀ {b}, o.state.function.Pending b → g.state.function.Pending b
  scopes : g.state.scopes = o.state.scopes

/-- Leaving the current block, with the same blocks waiting as before. -/
structure Leaves (g g' : Site) : Prop extends Left g g' where
  settled : ∀ {b}, g'.state.function.Pending b → g.state.function.Pending b

theorem Along.left (h : Along o g) (hl : Left g g') : Left o g' :=
  ⟨h.trace.trans hl.trace, hl.closed, fun hb => hl.waiting (h.waiting hb), hl.scopes.trans h.scopes⟩

theorem Onward.leaves (h : Onward o g) (hl : Leaves g g') : Leaves o g' :=
  ⟨h.toAlong.left hl.toLeft, fun hb => h.settled (hl.settled hb)⟩

theorem leave_leaves {e : Exit} {a : Unit} {s' : LoweringState}
    (h : Gives (Lowering.leave e) g.state a s') (hgive : ∀ id, e ≠ .give id)
    (hto : ∀ t ∈ e.targets, ∃ b y, g.state.function.block? b = some y ∧ y.label = t ∧ g.CanReach b)
    (hcond : ∀ c ∈ e.conditions, g.Usable c) : ∃ g', g'.state = s' ∧ Leaves g g' := by
  obtain ⟨f, hf, rfl⟩ := Lowering.gives_leave.1 h
  obtain ⟨hcheck, x, ⟨hx, hopen⟩, rfl⟩ := Function.setExit_gives.1 hf
  have hstep : Step g _ := .leave (s := g.state) (k := g.known) hx hopen hgive hto fun c hc => by
    obtain ⟨ty, hty, hb⟩ := (Function.checkExit_eq_ok.1 hcheck).2 c hc
    rw [Function.operandType_eq_ok_iff_valueType?, LoweredType.eq_bool_of_isBool hb] at hty
    exact ⟨hcond c hc, hty⟩
  have hself := Function.block?_withExit hx e g.state.current
  rw [if_pos rfl] at hself
  have hpend : ∀ b, (g.state.function.withExit g.state.current x e).Pending b ↔ g.state.function.Pending b := by
    intro b
    simp [Function.Pending, Function.withExit, Function.put, Function.blockIds]
  exact ⟨_, rfl, ⟨.single hstep, ⟨_, hself, rfl⟩, fun hb => (hpend _).2 hb, rfl⟩, fun hb => (hpend _).1 hb⟩

theorem isTerminated_of_isOpen {s : LoweringState} (h : s.function.IsOpen s.current) :
    (s.function.block? s.current).any Block.isTerminated = false := by
  obtain ⟨x, hx, he⟩ := h
  simp [hx, Block.isTerminated, he]

theorem isTerminated_of_isClosed {s : LoweringState} (h : s.function.IsClosed s.current) :
    (s.function.block? s.current).any Block.isTerminated = true := by
  obtain ⟨x, hx, he⟩ := h
  simpa [hx, Block.isTerminated] using he

theorem branchTo_leaves (hr : g.Ready) {b : BlockId} (hb : g.CanReach b) {a : Unit} {s' : LoweringState}
    (h : Gives (Lowering.branchTo b) g.state a s') : ∃ g', g'.state = s' ∧ Leaves g g' := by
  simp only [Lowering.branchTo, gives_bind (x := Lowering.isTerminated), Lowering.gives_isTerminated,
    isTerminated_of_isOpen hr.isOpen] at h
  obtain ⟨_, _, ⟨rfl, rfl⟩, h⟩ := h
  simp only [Bool.false_eq_true, if_false, gives_bind, Lowering.gives_inFunction, Function.labelOf_gives] at h
  obtain ⟨_, _, ⟨_, ⟨⟨y, hy, rfl⟩, rfl⟩, rfl⟩, h⟩ := h
  refine leave_leaves h (by simp) ?_ (by simp [Exit.conditions])
  simpa [Exit.targets] using ⟨b, y, hy, rfl, hb⟩

/-- A block that has its exit keeps it. -/
theorem branchTo_of_closed {s s' : LoweringState} (hc : s.function.IsClosed s.current) {b : BlockId} {a : Unit}
    (h : Gives (Lowering.branchTo b) s a s') : s' = s := by
  simp only [Lowering.branchTo, gives_bind (x := Lowering.isTerminated), Lowering.gives_isTerminated,
    isTerminated_of_isClosed hc] at h
  obtain ⟨_, _, ⟨rfl, rfl⟩, h⟩ := h
  simp only [if_true, gives_pure] at h
  exact h.2.symm

theorem branchOn_leaves {c : ValueId} {t f : BlockId} (hc : g.Usable c) (ht : g.CanReach t)
    (hf : g.CanReach f) {a : Unit} {s' : LoweringState} (h : Gives (Lowering.branchOn c t f) g.state a s') :
    ∃ g', g'.state = s' ∧ Leaves g g' := by
  simp only [Lowering.branchOn, gives_bind, Lowering.gives_inFunction, Function.labelOf_gives] at h
  obtain ⟨_, _, ⟨_, ⟨⟨y, hy, rfl⟩, rfl⟩, rfl⟩, _, _, ⟨_, ⟨⟨z, hz, rfl⟩, rfl⟩, rfl⟩, h⟩ := h
  refine leave_leaves h (by simp) ?_ (by simpa [Exit.conditions] using hc)
  simpa [Exit.targets] using ⟨⟨t, y, hy, rfl, ht⟩, f, z, hz, rfl, hf⟩

/-! ## Arriving -/

/-- The block is the current one and has no instructions yet. -/
def Enters (g : Site) (b : BlockId) : Prop :=
  g.state.current = b ∧ ∃ x, g.state.function.block? b = some x ∧ x.instructions = #[]

/-- **Going on in a block made at `o`**, once control has left `o`. -/
theorem arrive (hr : o.Ready) (hl : Left o g) {b : BlockId} (hb : g.state.function.Pending b)
    (hnew : ¬ o.state.function.Pending b) (hknown : o.here ⊆ g.known b) {a : Unit} {s' : LoweringState}
    (h : Gives (Lowering.startBlock b) g.state a s') :
    ∃ g', g'.state = s' ∧ Along o g' ∧ Trace g g' ∧ g'.Enters b ∧
      ∀ c, g'.state.function.Pending c ↔ g.state.function.Pending c ∧ c ≠ b := by
  obtain ⟨f, hf, rfl⟩ := Lowering.gives_startBlock.1 h
  obtain ⟨l, hlay, -, rfl⟩ := Function.appendBlock_gives hf
  have hs := hl.trace.sound hr.sound
  have hstep : Step g _ := .start (s := g.state) (k := g.known) hlay hb hl.closed
  have hpend : ∀ c, (g.state.function.place b).Pending c ↔ g.state.function.Pending c ∧ c ≠ b := by
    intro c
    rw [Function.Pending, Function.Pending, Function.blockIds_place hlay]
    simp [Function.place, and_assoc]
  obtain ⟨x, hx⟩ := Function.exists_block? hb.1
  obtain ⟨hblank, hopen⟩ := hs.laid.blank hx hb.2
  refine ⟨_, rfl, ⟨hl.trace.tail hstep, ⟨x, hx, hopen⟩, ?_, ?_, hl.scopes⟩, .single hstep, ⟨rfl, x, hx, hblank⟩,
    hpend⟩
  · exact fun i hi => Or.inl (hknown hi)
  · intro c hc
    refine (hpend c).2 ⟨hl.waiting hc, ?_⟩
    rintro rfl
    exact hnew hc

/-- Going on in the last block made at `o`. -/
theorem rejoin (hr : o.Ready) (hl : Left o g) {b : BlockId} (hb : g.state.function.Pending b)
    (hnew : ¬ o.state.function.Pending b) (hk : g.known b = o.here)
    (hlast : ∀ {c}, g.state.function.Pending c → c ≠ b → o.state.function.Pending c) {a : Unit} {s' : LoweringState}
    (h : Gives (Lowering.startBlock b) g.state a s') :
    ∃ g', g'.state = s' ∧ Onward o g' ∧ Trace g g' ∧ g'.Enters b := by
  obtain ⟨g', rfl, ha, ht, he, hp⟩ := arrive hr hl hb hnew hk.ge h
  refine ⟨g', rfl, ⟨ha, fun {c} hc => ?_⟩, ht, he⟩
  obtain ⟨hc, hne⟩ := (hp c).1 hc
  exact hlast hc hne

/-- One arm of a branching that was made at `o` ends at `g'`: it has entered the block `b`, `x` has run there, and
what was left of control has gone to `join`. -/
def Arm (o : Site) (b join : BlockId) (x : Lowering Unit) (g' : Site) : Prop :=
  ∃ g₁ g₂, Along o g₁ ∧ g₁.Enters b ∧ Gives x g₁.state () g₂.state ∧ Trace g₁ g₂ ∧
    Gives (Lowering.branchTo join) g₂.state () g'.state ∧ Trace g₂ g'

theorem arm_left (hr : o.Ready) (hl : Left o g) {b join : BlockId} (hb : g.state.function.Pending b)
    (hnew : ¬ o.state.function.Pending b) (hk : g.known b = o.here) (hne : b ≠ join)
    (hj : g.state.function.Pending join) (hjk : g.known join = o.here) {x k : Lowering Unit}
    (hx : ∀ {g₁ a s'}, Along o g₁ → Gives x g₁.state a s' → ∃ g₂, g₂.state = s' ∧ (Onward g₁ g₂ ∨ Leaves g₁ g₂))
    {a : Unit} {s' : LoweringState}
    (h : Gives (do Lowering.startBlock b; x; Lowering.branchTo join; k) g.state a s') :
    ∃ g', Gives k g'.state a s' ∧ Arm o b join x g' ∧ Left o g' ∧ Trace g g' ∧
      ∀ c, g'.state.function.Pending c ↔ g.state.function.Pending c ∧ c ≠ b := by
  simp only [gives_bind] at h
  obtain ⟨_, _, h₁, _, _, h₂, _, _, h₃, h⟩ := h
  obtain ⟨g₁, rfl, a₁, t₁, e₁, hp₁⟩ := arrive hr hl hb hnew hk.ge h₁
  obtain ⟨g₂, rfl, h₁₂⟩ := hx a₁ h₂
  rcases h₁₂ with o₂ | l₂
  · have hj₁ : g₁.state.function.Pending join := (hp₁ join).2 ⟨hj, hne.symm⟩
    have hk₂ : g₂.known join = o.here := by rw [(t₁.trans o₂.trace).known_eq hj.1, hjk]
    obtain ⟨g₃, rfl, l₃⟩ := branchTo_leaves (o₂.ready (a₁.ready hr))
      ⟨o₂.waiting hj₁, hk₂ ▸ a₁.here.trans o₂.here⟩ h₃
    exact ⟨g₃, h, ⟨g₁, g₂, a₁, e₁, h₂, o₂.trace, h₃, l₃.trace⟩, (a₁.trans o₂.toAlong).left l₃.toLeft,
      t₁.trans (o₂.trace.trans l₃.trace), fun c =>
      ⟨fun hc => (hp₁ c).1 (o₂.settled (l₃.settled hc)), fun hc => l₃.waiting (o₂.waiting ((hp₁ c).2 hc))⟩⟩
  · -- the arm has left already
    have := branchTo_of_closed l₂.closed h₃
    subst this
    exact ⟨g₂, h, ⟨g₁, g₂, a₁, e₁, h₂, l₂.trace, h₃, .refl⟩, a₁.left l₂.toLeft, t₁.trans l₂.trace, fun c =>
      ⟨fun hc => (hp₁ c).1 (l₂.settled hc), fun hc => l₂.waiting ((hp₁ c).2 hc)⟩⟩

end Site

end BlockForm
