import BlockForm.Lowering.Statement
import BlockForm.Proofs.Expressions

/-!
# BlockForm.Proofs.Statements — lowering statements goes onward or leaves

A statement goes on in the current block or in a block it has come to, perhaps with more names in the innermost
scope, or it has left for the end block.  A body ends with the scopes it started with.
-/

namespace BlockForm

open Action

namespace Site

variable {o g g' g'' : Site}

/-- Statements have run: control has gone on or has left, with no block left over, and only the innermost scope has
changed. -/
structure Advances (g g' : Site) : Prop where
  trace : Trace g g'
  waiting : ∀ {b}, g.state.function.Pending b → g'.state.function.Pending b
  settled : ∀ {b}, g'.state.function.Pending b → g.state.function.Pending b
  tail : g'.state.scopes.tail = g.state.scopes.tail
  outcome : (g'.Ready ∧ g.here ⊆ g'.here) ∨ g'.state.function.IsClosed g'.state.current

theorem Onward.advances (h : Onward g g') (hr : g.Ready) : Advances g g' :=
  ⟨h.trace, h.waiting, h.settled, by rw [h.scopes], Or.inl ⟨h.ready hr, h.here⟩⟩

theorem Leaves.advances (h : Leaves g g') : Advances g g' :=
  ⟨h.trace, h.waiting, h.settled, by rw [h.scopes], Or.inr h.closed⟩

theorem Advances.trans (h₁ : Advances g g') (h₂ : Advances g' g'') (hh : g.here ⊆ g'.here) : Advances g g'' := by
  refine ⟨h₁.trace.trans h₂.trace, fun hb => h₂.waiting (h₁.waiting hb), fun hb => h₁.settled (h₂.settled hb),
    h₂.tail.trans h₁.tail, ?_⟩
  rcases h₂.outcome with ⟨hr, hh'⟩ | hc
  · exact Or.inl ⟨hr, hh.trans hh'⟩
  · exact Or.inr hc

/-! ## Simple statements -/

theorem fill_yields (hr : g.Ready) {memory : ValueId} (hm : g.Usable memory) (ty : Ty) (args : List Expr) :
    Yields (Lowering.fill memory ty args) g fun _ _ => True := by
  unfold Lowering.fill
  refine (prepare_yields hr hm _).bind fun site g₁ h₁ hsite => ?_
  exact storeAll_yields args (h₁.ready hr) hsite 0

theorem assigned_yields (hr : g.Ready) {slot : ValueId} (hs : g.Usable slot) (e : Expr) :
    Yields (do
      let v ← Lowering.lowerExpr e
      Lowering.store slot v) g fun _ _ => True :=
  (lowerExpr_yields e hr).bind fun _ _ h₁ hv => store_yields (h₁.ready hr) (h₁.usable hs) hv

theorem fillInitial_yields (hr : g.Ready) {slot : ValueId} (hs : g.Usable slot) (ty : Ty) (e : Expr) :
    Yields (Lowering.fillInitial slot ty e) g fun _ _ => True := by
  unfold Lowering.fillInitial
  split
  · split
    · exact fill_yields hr hs _ _
    · exact assigned_yields hr hs _
  · exact assigned_yields hr hs _

/-- A new name stands for a slot that can be read. -/
theorem define_advances (hr : g.Ready) {name : String} {slot : ValueId} (hs : g.Usable slot) {a : Unit}
    {s' : LoweringState} (h : Gives (Lowering.define name slot) g.state a s') :
    ∃ g', g'.state = s' ∧ Advances g g' ∧ g'.Ready ∧ g.here ⊆ g'.here := by
  simp only [Lowering.define, gives_modify] at h
  subst h
  cases hsc : g.state.scopes with
  | nil => exact ⟨g, rfl, (Onward.refl hr.isOpen).advances hr, hr, subset_rfl⟩
  | cons scope rest =>
    have hslots := hr.slots
    rw [hsc] at hslots
    have hr' : (g.withScopes (((name, slot) :: scope) :: rest)).Ready := by
      refine hr.withScopes fun sc hmem p hp => ?_
      rcases List.mem_cons.1 hmem with rfl | hmem
      · rcases List.mem_cons.1 hp with rfl | hp
        · exact hs
        · exact hslots scope (List.mem_cons_self ..) p hp
      · exact hslots sc (List.mem_cons_of_mem _ hmem) p hp
    refine ⟨g.withScopes (((name, slot) :: scope) :: rest), rfl, ?_, hr', subset_rfl⟩
    refine ⟨.single (.scopes (s := g.state) (k := g.known) _), id, id, by rw [hsc]; rfl, ?_⟩
    exact Or.inl ⟨hr', subset_rfl⟩

theorem declare_advances (hr : g.Ready) {name : String} {ty : Ty} {initial : Option Expr} {span : Span} {a : Unit}
    {s' : LoweringState} (h : Gives (Lowering.lowerStatement (.declare name ty initial span)) g.state a s') :
    ∃ g', g'.state = s' ∧ Advances g g' := by
  rw [Lowering.lowerStatement] at h
  simp only [gives_bind] at h
  obtain ⟨lowered, s₁, h₁, slot, s₂, h₂, h⟩ := h
  obtain ⟨g₁, rfl, o₁, hk⟩ := lowerType_yields hr ty lowered s₁ h₁
  have hr₁ := o₁.ready hr
  obtain ⟨g₂, rfl, o₂, hs⟩ := alloca_yields hr₁.sound hk.1 slot s₂ h₂
  have hr₂ := o₂.ready hr₁
  have ho := o₁.trans o₂
  cases initial with
  | none =>
    obtain ⟨g₃, rfl, a₃, -⟩ := define_advances hr₂ hs h
    exact ⟨g₃, rfl, (ho.advances hr).trans a₃ ho.here⟩
  | some e =>
    obtain ⟨_, s₃, h₃, h₄⟩ := gives_bind.1 h
    obtain ⟨g₃, rfl, o₃, -⟩ := fillInitial_yields hr₂ hs ty e _ s₃ h₃
    obtain ⟨g₄, rfl, a₄, -⟩ := define_advances (o₃.ready hr₂) (o₃.usable hs) h₄
    exact ⟨g₄, rfl, ((ho.trans o₃).advances hr).trans a₄ (ho.trans o₃).here⟩

theorem lowerReturn_leaves (hr : g.Ready) {value : Option Expr} {a : Unit} {s' : LoweringState}
    (h : Gives (Lowering.lowerReturn value) g.state a s') : ∃ g', g'.state = s' ∧ Leaves g g' := by
  simp only [Lowering.lowerReturn, gives_get_bind] at h
  split at h
  · next e slot hslot =>
    have hs : g.Usable slot := hr.returnSlot slot (by simp [hslot])
    obtain ⟨_, s₁, h₁, h₂⟩ := gives_bind.1 h
    obtain ⟨_, s₂, h₂, h₃⟩ := gives_bind.1 h₂
    obtain ⟨g₁, rfl, o₁, -⟩ := assigned_yields hr hs e () s₂ (gives_bind.2 ⟨_, _, h₁, h₂⟩)
    obtain ⟨g₂, rfl, l₂⟩ := branchTo_leaves (o₁.ready hr) (o₁.canReach hr.ending) h₃
    exact ⟨g₂, rfl, o₁.leaves l₂⟩
  · exact branchTo_leaves hr hr.ending (by simpa using h)
  · simp [gives_bind] at h

/-! ## Branches -/

/-- The body goes on or leaves, from every place. -/
def BodyPasses (body : Body) : Prop :=
  ∀ {g : Site} {a : Unit} {s' : LoweringState}, g.Ready → Gives (Lowering.lowerBody body) g.state a s' →
    ∃ g', g'.state = s' ∧ (Onward g g' ∨ Leaves g g')

/-- A branching made at `g`: control leaves for one of two blocks, and all of it comes to `join` in the end. -/
structure Forks (g : Site) (c : ValueId) (taken otherwise join : BlockId) (g' : Site) : Prop where
  left : ∃ g₁ g₂, Along g g₁ ∧ Stays g g₁ ∧ Gives (Lowering.branchOn c taken otherwise) g₁.state () g₂.state ∧
    Trace g₂ g'
  enters : g'.Enters join
  onward : Onward g g'

/-- A branch with two arms forks, and both arms come to the join. -/
theorem branchElse_forks (hr : g.Ready) {condition : Expr} {whenTrue whenFalse : Body} {span : Span}
    (hT : BodyPasses whenTrue) (hF : BodyPasses whenFalse) {a : Unit} {s' : LoweringState}
    (h : Gives (Lowering.lowerStatement (.branch condition whenTrue (some whenFalse) span)) g.state a s') :
    ∃ c g₁ t e join gt ge g', g'.state = s' ∧ Gives (do
        let c ← Lowering.lowerExpr condition
        Lowering.coerce c (.elementary .bool)) g.state c g₁.state ∧ Onward g g₁ ∧ Forks g₁ c t e join g' ∧
      Arm g₁ t join (Lowering.lowerBody whenTrue) gt ∧ Trace gt g' ∧
      Arm g₁ e join (Lowering.lowerBody whenFalse) ge ∧ Trace ge g' := by
  rw [Lowering.lowerStatement, ← bind_assoc, gives_bind] at h
  obtain ⟨c, s₁, h₁, h⟩ := h
  obtain ⟨g₁, rfl, o₁, hc⟩ := coerced_yields hr condition _ c s₁ h₁
  have hr₁ := o₁.ready hr
  simp only [gives_bind (x := Lowering.newBlock), gives_bind (x := Lowering.branchOn _ _ _)] at h
  obtain ⟨t, s₂, h₂, e, s₃, h₃, join, s₄, h₄, _, s₅, h₅, h⟩ := h
  obtain ⟨g₂, rfl, a₂, st₂, here₂, k₂, n₂, p₂⟩ := newBlock_along hr₁ h₂
  obtain ⟨g₃, rfl, a₃, st₃, here₃, k₃, n₃, p₃⟩ := newBlock_along (a₂.ready hr₁) h₃
  have a₁₃ := a₂.trans a₃
  obtain ⟨g₄, rfl, a₄, st₄, here₄, k₄, n₄, p₄⟩ := newBlock_along (a₁₃.ready hr₁) h₄
  have a₁₄ := a₁₃.trans a₄
  have ht : g₂.state.function.Pending t := (p₂ t).2 (Or.inr rfl)
  have he : g₃.state.function.Pending e := (p₃ e).2 (Or.inr rfl)
  have hj : g₄.state.function.Pending join := (p₄ join).2 (Or.inr rfl)
  have kt : g₄.known t = g₁.here := by rw [(a₃.trans a₄).trace.known_eq ht.1, k₂]
  have ke : g₄.known e = g₁.here := by rw [a₄.trace.known_eq he.1, k₃, here₂]
  have kj : g₄.known join = g₁.here := by rw [k₄, here₃, here₂]
  have hte : t ≠ e := by rintro rfl; exact n₃ ht
  have htj : t ≠ join := by rintro rfl; exact n₄ (a₃.waiting ht)
  have hej : e ≠ join := by rintro rfl; exact n₄ he
  have ht₄ := a₄.waiting (a₃.waiting ht)
  have he₄ := a₄.waiting he
  obtain ⟨g₅, rfl, l₅⟩ := branchOn_leaves (a₁₄.usable hc) ⟨ht₄, by rw [kt]; exact a₁₄.here⟩
    ⟨he₄, by rw [ke]; exact a₁₄.here⟩ h₅
  have kept₅ : ∀ {b}, g₄.state.function.Pending b → g₅.known b = g₄.known b := fun hb => l₅.trace.known_eq hb.1
  obtain ⟨g₆, h, arm₆, l₆, t₆, p₆⟩ := arm_left hr₁ (a₁₄.left l₅.toLeft) (l₅.waiting ht₄) n₂ (by rw [kept₅ ht₄, kt])
    htj (l₅.waiting hj) (by rw [kept₅ hj, kj]) (fun a₁ hx => hT (a₁.ready hr₁) hx) h
  have kept₆ : ∀ {b}, g₄.state.function.Pending b → g₆.known b = g₄.known b := fun hb =>
    (l₅.trace.trans t₆).known_eq hb.1
  obtain ⟨g₇, h, arm₇, l₇, t₇, p₇⟩ := arm_left hr₁ l₆ ((p₆ e).2 ⟨l₅.waiting he₄, hte.symm⟩)
    (fun hp => n₃ (a₂.waiting hp)) (by rw [kept₆ he₄, ke]) hej ((p₆ join).2 ⟨l₅.waiting hj, htj.symm⟩)
    (by rw [kept₆ hj, kj]) (fun a₁ hx => hF (a₁.ready hr₁) hx) h
  obtain ⟨g₈, rfl, o₈, t₈, e₈⟩ := rejoin hr₁ l₇ ((p₇ join).2 ⟨(p₆ join).2 ⟨l₅.waiting hj, htj.symm⟩, hej.symm⟩)
    (fun hp => n₄ (a₁₃.waiting hp)) (by rw [(l₅.trace.trans (t₆.trans t₇)).known_eq hj.1, kj])
    (fun {b} hb hbj => by
      obtain ⟨hb, hbe⟩ := (p₇ b).1 hb
      obtain ⟨hb, hbt⟩ := (p₆ b).1 hb
      have hb := ((p₄ b).1 (l₅.settled hb)).resolve_right hbj
      exact ((p₂ b).1 (((p₃ b).1 hb).resolve_right hbe)).resolve_right hbt) h
  exact ⟨c, g₁, t, e, join, g₆, g₇, g₈, rfl, h₁, o₁,
    ⟨⟨g₄, g₅, a₁₄, (st₂.trans st₃).trans st₄, h₅, t₆.trans (t₇.trans t₈)⟩, e₈, o₈⟩, arm₆, t₇.trans t₈, arm₇, t₈⟩

/-- A branch with one arm forks to the arm and to the join. -/
theorem branch_forks (hr : g.Ready) {condition : Expr} {whenTrue : Body} {span : Span}
    (hT : BodyPasses whenTrue) {a : Unit} {s' : LoweringState}
    (h : Gives (Lowering.lowerStatement (.branch condition whenTrue none span)) g.state a s') :
    ∃ c g₁ t join gt g', g'.state = s' ∧ Gives (do
        let c ← Lowering.lowerExpr condition
        Lowering.coerce c (.elementary .bool)) g.state c g₁.state ∧ Onward g g₁ ∧ Forks g₁ c t join join g' ∧
      Arm g₁ t join (Lowering.lowerBody whenTrue) gt ∧ Trace gt g' := by
  rw [Lowering.lowerStatement, ← bind_assoc, gives_bind] at h
  obtain ⟨c, s₁, h₁, h⟩ := h
  obtain ⟨g₁, rfl, o₁, hc⟩ := coerced_yields hr condition _ c s₁ h₁
  have hr₁ := o₁.ready hr
  simp only [gives_bind (x := Lowering.newBlock), gives_bind (x := Lowering.branchOn _ _ _)] at h
  obtain ⟨t, s₂, h₂, join, s₃, h₃, _, s₄, h₄, h⟩ := h
  obtain ⟨g₂, rfl, a₂, st₂, here₂, k₂, n₂, p₂⟩ := newBlock_along hr₁ h₂
  obtain ⟨g₃, rfl, a₃, st₃, here₃, k₃, n₃, p₃⟩ := newBlock_along (a₂.ready hr₁) h₃
  have a₁₃ := a₂.trans a₃
  have ht : g₂.state.function.Pending t := (p₂ t).2 (Or.inr rfl)
  have hj : g₃.state.function.Pending join := (p₃ join).2 (Or.inr rfl)
  have kt : g₃.known t = g₁.here := by rw [a₃.trace.known_eq ht.1, k₂]
  have kj : g₃.known join = g₁.here := by rw [k₃, here₂]
  have htj : t ≠ join := by rintro rfl; exact n₃ ht
  have ht₃ := a₃.waiting ht
  obtain ⟨g₄, rfl, l₄⟩ := branchOn_leaves (a₁₃.usable hc) ⟨ht₃, by rw [kt]; exact a₁₃.here⟩
    ⟨hj, by rw [kj]; exact a₁₃.here⟩ h₄
  obtain ⟨g₅, h, arm₅, l₅, t₅, p₅⟩ := arm_left hr₁ (a₁₃.left l₄.toLeft) (l₄.waiting ht₃) n₂
    (by rw [l₄.trace.known_eq ht₃.1, kt]) htj (l₄.waiting hj) (by rw [l₄.trace.known_eq hj.1, kj])
    (fun a₁ hx => hT (a₁.ready hr₁) hx) h
  obtain ⟨g₆, rfl, o₆, t₆, e₆⟩ := rejoin hr₁ l₅ ((p₅ join).2 ⟨l₄.waiting hj, htj.symm⟩)
    (fun hp => n₃ (a₂.waiting hp)) (by rw [(l₄.trace.trans t₅).known_eq hj.1, kj])
    (fun {b} hb hbj => by
      obtain ⟨hb, hbt⟩ := (p₅ b).1 hb
      exact ((p₂ b).1 (((p₃ b).1 (l₄.settled hb)).resolve_right hbj)).resolve_right hbt) h
  exact ⟨c, g₁, t, join, g₅, g₆, rfl, h₁, o₁, ⟨⟨g₃, g₄, a₁₃, st₂.trans st₃, h₄, t₅.trans t₆⟩, e₆, o₆⟩, arm₅, t₆⟩

/-! ## All statements -/

/-- After a statement that leaves, the rest is left out. -/
theorem gives_lowerStatements_cons {st : Statement} {rest : List Statement} {s s' : LoweringState} {a : Unit}
    (h : Gives (Lowering.lowerStatements (st :: rest)) s a s') :
    ∃ s₁, Gives (Lowering.lowerStatement st) s () s₁ ∧
      (s₁.function.IsOpen s₁.current → Gives (Lowering.lowerStatements rest) s₁ a s') ∧
      (s₁.function.IsClosed s₁.current → s₁ = s') := by
  rw [Lowering.lowerStatements] at h
  simp only [gives_bind (x := Lowering.lowerStatement _), gives_bind (x := Lowering.isTerminated),
    Lowering.gives_isTerminated] at h
  obtain ⟨_, s₁, h₁, _, _, ⟨rfl, rfl⟩, h⟩ := h
  refine ⟨s₁, h₁, fun hopen => ?_, fun hclosed => ?_⟩
  · simpa [isTerminated_of_isOpen hopen] using h
  · rw [isTerminated_of_isClosed hclosed] at h
    by_cases he : rest.isEmpty = true
    · simpa [he] using h
    · simpa [he] using h

mutual

/-- **Lowering a statement goes onward or leaves.** -/
theorem lowerStatement_advances : (st : Statement) → ∀ {g : Site} {a : Unit} {s' : LoweringState}, g.Ready →
    Gives (Lowering.lowerStatement st) g.state a s' → ∃ g', g'.state = s' ∧ Advances g g'
  | .declare _ _ _ _, _, _, _, hr, h => declare_advances hr h
  | .assign name value _, g, a, s', hr, h => by
    rw [Lowering.lowerStatement] at h
    have assigned : Yields (do
        let slot ← Lowering.slotOf name
        let v ← Lowering.lowerExpr value
        Lowering.store slot v) g fun _ _ => True :=
      yields_slotOf_bind hr fun slot hs => assigned_yields hr hs value
    obtain ⟨g', rfl, ho, -⟩ := assigned a s' h
    exact ⟨g', rfl, ho.advances hr⟩
  | .give value _, g, a, s', hr, h => by
    rw [Lowering.lowerStatement] at h
    obtain ⟨g', rfl, hl⟩ := lowerReturn_leaves hr h
    exact ⟨g', rfl, hl.advances⟩
  | .branch condition whenTrue (some whenFalse) _, g, a, s', hr, h => by
    obtain ⟨_, g₁, _, _, _, _, _, g', rfl, -, ho, hf, -⟩ :=
      branchElse_forks hr (lowerBody_passes whenTrue) (lowerBody_passes whenFalse) h
    exact ⟨g', rfl, (ho.trans hf.onward).advances hr⟩
  | .branch condition whenTrue none _, g, a, s', hr, h => by
    obtain ⟨_, g₁, _, _, _, g', rfl, -, ho, hf, -⟩ := branch_forks hr (lowerBody_passes whenTrue) h
    exact ⟨g', rfl, (ho.trans hf.onward).advances hr⟩
  | .effect value, g, a, s', hr, h => by
    rw [Lowering.lowerStatement] at h
    obtain ⟨v, s₁, h₁, h₂⟩ := gives_bind.1 h
    obtain ⟨g', rfl, ho, -⟩ := lowerExpr_yields value hr v s₁ h₁
    obtain ⟨-, rfl⟩ := gives_pure.1 h₂
    exact ⟨g', rfl, ho.advances hr⟩

theorem lowerBody_passes : (body : Body) → BodyPasses body
  | ⟨statements, _, _⟩, g, a, s', hr, h => by
    rw [Lowering.lowerBody] at h
    obtain ⟨t, ht, rfl⟩ := Lowering.gives_inScope.1 h
    have hr₀ : (g.withScopes ([] :: g.state.scopes)).Ready := hr.withScopes (by simpa using hr.slots)
    obtain ⟨g', rfl, hadv⟩ := lowerStatements_advances statements hr₀ ht
    have htail : g'.state.scopes.tail = g.state.scopes := hadv.tail
    have htrace : Trace g (g'.withScopes g.state.scopes) :=
      ((Relation.ReflTransGen.single (.scopes (s := g.state) (k := g.known) _)).trans hadv.trace).tail
        (.scopes (s := g'.state) (k := g'.known) _)
    refine ⟨g'.withScopes g.state.scopes, by simp only [withScopes, htail], ?_⟩
    rcases hadv.outcome with ⟨hr', hh⟩ | hc
    · exact Or.inl ⟨⟨htrace, hr'.isOpen, hh, hadv.waiting, rfl⟩, hadv.settled⟩
    · exact Or.inr ⟨⟨htrace, hc, hadv.waiting, rfl⟩, hadv.settled⟩

theorem lowerStatements_advances : (statements : List Statement) → ∀ {g : Site} {a : Unit} {s' : LoweringState},
    g.Ready → Gives (Lowering.lowerStatements statements) g.state a s' → ∃ g', g'.state = s' ∧ Advances g g'
  | [], g, a, s', hr, h => by
    rw [Lowering.lowerStatements] at h
    obtain ⟨-, rfl⟩ := gives_pure.1 h
    exact ⟨g, rfl, (Onward.refl hr.isOpen).advances hr⟩
  | st :: rest, g, a, s', hr, h => by
    obtain ⟨s₁, h₁, hopen, hclosed⟩ := gives_lowerStatements_cons h
    obtain ⟨g₁, rfl, a₁⟩ := lowerStatement_advances st hr h₁
    rcases a₁.outcome with ⟨hr₁, hh⟩ | hc
    · obtain ⟨g₂, rfl, a₂⟩ := lowerStatements_advances rest hr₁ (hopen hr₁.isOpen)
      exact ⟨g₂, rfl, a₁.trans a₂ hh⟩
    · exact ⟨g₁, hclosed hc, a₁⟩

end

end Site

end BlockForm
