import BlockForm.Proofs.ElementaryPrograms

/-!
# BlockForm.Proofs.ElementaryBodies — the bodies of elementary programs lower without errors

A statement completes with an open or a closed current block, in the scopes it found and with the name it declares
(`lowerStatement_completes`).  The arms of a branch are completed one after another: `After` keeps track of the blocks
that wait to be placed.
-/

namespace BlockForm

open Action

namespace Lowering

variable {s : LoweringState} {signatures : List Signature} {gives : Bool} {scope : List String}

/-! ## Statements -/

theorem completes_inScope {α : Type} {x : Lowering α} {P Q : α → LoweringState → Prop}
    (h : Completes x { s with scopes := [] :: s.scopes } P)
    (hQ : ∀ a s', P a s' → Q a { s' with scopes := s'.scopes.tail }) : Completes (inScope x) s Q := by
  rcases h with h | ⟨a, s', h, hP⟩
  · exact Or.inl h
  · exact completes_of_gives (gives_inScope.2 ⟨s', h, rfl⟩) (hQ a s' hP)

/-- The value of an expression is stored in a slot. -/
theorem assigned_completes (hs : s.Able) (hp : s.Supports signatures gives scope) {slot : ValueId} {e : Elementary}
    (hslot : s.function.IsSlot slot e) {value : Expr} (hv : value.isElementary signatures scope = true) :
    Completes (do
      let v ← lowerExpr value
      store slot v) s fun _ s' => s.Within s' := by
  refine (lowerExpr_completes value hs hp hv).bind ?_
  rintro v s₁ ⟨hw₁, a, ha⟩
  exact (store_completes (hw₁.able hs) (hw₁.slot hslot) ha).mono fun _ s₂ hw₂ => hw₁.trans hw₂

/-- A variable takes its first value; a conversion to a type with a definition of its own is left to the slot. -/
theorem fillInitial_completes (hs : s.Able) (hp : s.Supports signatures gives scope) {slot : ValueId} {e : Elementary}
    (hslot : s.function.IsSlot slot e) (ty : Ty) {value : Expr} (hv : value.isElementary signatures scope = true) :
    Completes (fillInitial slot ty value) s fun _ s' => s.Within s' := by
  match value, hv with
  | .call name [arg] callee true ety span, hv =>
    unfold fillInitial
    dsimp only
    split
    · simp only [Expr.isElementary, Expr.areElementary, Bool.and_true, Bool.and_eq_true, if_true] at hv
      obtain ⟨harg, -, hty⟩ := hv
      obtain ⟨d, hd⟩ := Option.isSome_iff_exists.1 hty
      rw [Machine.fill_elementary hd]
      exact assigned_completes hs hp hslot harg
    · exact assigned_completes hs hp hslot hv
  | .call name args callee false ety span, hv =>
    have hdef : callee.isDefined = false := by
      simp only [Expr.isElementary, Bool.and_eq_true, Bool.false_eq_true, if_false, List.any_eq_true,
        Signature.isCalled, decide_eq_true_iff] at hv
      obtain ⟨-, t, -, ⟨-, rfl, -⟩, -⟩ := hv
      rfl
    simp only [fillInitial, hdef, Bool.false_and, Bool.false_eq_true, if_false]
    exact assigned_completes hs hp hslot hv
  | .call name [] callee true ety span, hv => simp [Expr.isElementary] at hv
  | .call name (_ :: _ :: _) callee true ety span, hv => simp [Expr.isElementary] at hv
  | .constant .., hv | .ident .., hv | .binary .., hv | .text .., hv | .choice .., hv =>
    simp only [fillInitial]
    exact assigned_completes hs hp hslot hv

/-- A name is given a slot. -/
theorem define_completes (hs : s.Able) (hp : s.Supports signatures gives scope) (name : String) {slot : ValueId}
    {e : Elementary} (hslot : s.function.IsSlot slot e) :
    Completes (define name slot) s fun _ s' => s.After [] s' ∧ s'.Able ∧ s'.scopes.tail = s.scopes.tail ∧
      s'.Supports signatures gives (name :: scope) := by
  obtain ⟨names, rest, hscopes⟩ := List.exists_cons_of_ne_nil hp.isScoped
  have hgives : Gives (define name slot) s () { s with scopes := ((name, slot) :: names) :: rest } := by
    refine gives_modify.2 ?_
    simp only [hscopes]
  have hfit : LoweringState.Fit { s with scopes := ((name, slot) :: names) :: rest } := by
    refine { hs.toFit with slots := fun sc hsc p hps => ?_ }
    rcases List.mem_cons.1 hsc with rfl | hsc
    · rcases List.mem_cons.1 hps with rfl | hps
      · exact ⟨e, hslot⟩
      · exact hs.slots names (hscopes ▸ List.mem_cons_self ..) p hps
    · exact hs.slots sc (hscopes ▸ List.mem_cons_of_mem _ hsc) p hps
  refine completes_of_gives hgives ⟨⟨rfl, rfl, .refl, fun _ hb => hb, hfit⟩, ⟨hfit, hs.isOpen⟩, by simp [hscopes],
    { hp with isScoped := List.cons_ne_nil _ _, binds := fun n hn => ?_ }⟩
  rcases List.mem_cons.1 hn with rfl | hn
  · exact ⟨_, List.mem_cons_self .., by simp⟩
  · obtain ⟨sc, hsc, hmem⟩ := hp.binds n hn
    rw [hscopes] at hsc
    rcases List.mem_cons.1 hsc with rfl | hsc
    · exact ⟨_, List.mem_cons_self .., by simp only [List.map_cons, List.mem_cons]; exact Or.inr hmem⟩
    · exact ⟨sc, List.mem_cons_of_mem _ hsc, hmem⟩

theorem declare_completes (hs : s.Able) (hp : s.Supports signatures gives scope) {name : String} {ty : Ty}
    {initial : Option Expr} {span : Span}
    (he : (Statement.declare name ty initial span).isElementary signatures gives scope = true) :
    Completes (lowerStatement (.declare name ty initial span)) s fun _ s' => s.After [] s' ∧
      s'.scopes.tail = s.scopes.tail ∧ s'.Supports signatures gives (name :: scope) ∧ s'.Ends := by
  rw [Statement.isElementary, Bool.and_eq_true] at he
  obtain ⟨hty, hinit⟩ := he
  obtain ⟨e, hty⟩ := Option.isSome_iff_exists.1 hty
  have defined : ∀ {s₁ slot}, s.Within s₁ → s₁.function.IsSlot slot e →
      Completes (define name slot) s₁ fun _ s' => s.After [] s' ∧ s'.scopes.tail = s.scopes.tail ∧
        s'.Supports signatures gives (name :: scope) ∧ s'.Ends := by
    intro s₁ slot hw hslot
    refine (define_completes (hw.able hs) (hw.supports hp) name hslot).mono ?_
    rintro _ s₂ ⟨ha, hs₂, htail, hp₂⟩
    exact ⟨(hw.after hs).trans ha, by rw [htail, hw.scopes], hp₂, Or.inl hs₂.isOpen⟩
  rw [lowerStatement]
  refine completes_bind_of_gives (gives_lowerType hty) ((alloca_completes hs e).bind ?_)
  rintro slot s₁ ⟨hw₁, hslot⟩
  cases initial with
  | none => exact completes_bind_of_gives (gives_pure.2 ⟨rfl, rfl⟩) (defined hw₁ hslot)
  | some value =>
    refine (fillInitial_completes (hw₁.able hs) (hw₁.supports hp) hslot ty hinit).bind ?_
    intro _ s₂ hw₂
    exact defined (hw₁.trans hw₂) (hw₂.slot hslot)

theorem lowerReturn_completes (hs : s.Able) (hp : s.Supports signatures gives scope) {value : Option Expr}
    {span : Span} (he : (Statement.give value span).isElementary signatures gives scope = true) :
    Completes (lowerReturn value) s fun _ s' => s.After [] s' ∧ s'.scopes = s.scopes ∧
      s'.function.IsClosed s'.current := by
  unfold lowerReturn
  refine completes_get_bind ?_
  have hret := hp.returns
  cases value with
  | none =>
    rw [Statement.isElementary, Bool.not_eq_true'] at he
    rw [he, Option.isSome_eq_false_iff, Option.isNone_iff_eq_none] at hret
    rw [hret]
    exact completes_bind_of_gives (gives_pure.2 ⟨rfl, rfl⟩)
      (branchTo_completes hs.toFit hp.ending.2 (Or.inl hs.isOpen))
  | some e =>
    rw [Statement.isElementary, Bool.and_eq_true] at he
    rw [he.1] at hret
    obtain ⟨slot, hslot⟩ := Option.isSome_iff_exists.1 hret
    obtain ⟨a, -, ha⟩ := hs.returnSlot slot hslot
    rw [hslot]
    dsimp only
    rw [← bind_assoc]
    refine (assigned_completes hs hp ha he.2).bind ?_
    intro _ s₁ hw
    refine (branchTo_completes (hw.able hs).toFit ?_ (Or.inl (hw.able hs).isOpen)).mono ?_
    · exact (hw.waits hp.ending).2
    · rintro _ s₂ ⟨ha, hscopes, hclosed⟩
      exact ⟨(hw.after hs).trans ha, hscopes.trans hw.scopes, hclosed⟩

/-- The body lowers, in the scope of some names, and leaves the scopes as they were. -/
def BodyCompletes (signatures : List Signature) (gives : Bool) (scope : List String) (body : Body) : Prop :=
  ∀ {s : LoweringState}, s.Able → s.Supports signatures gives scope →
    Completes (lowerBody body) s fun _ s' => s.After [] s' ∧ s'.scopes = s.scopes ∧ s'.Ends

/-- One arm of a branch: its block is placed, its body lowered, and control goes to the join. -/
theorem arm_completes {body : Body} (hbody : BodyCompletes signatures gives scope body) (hs : s.Fit)
    (hp : s.Supports signatures gives scope) {b join : BlockId} (hb : s.function.Waits b)
    (hjoin : s.function.Waits join) (hbj : join ≠ b) (hbe : s.endBlock ≠ b) {k : Lowering Unit}
    {Q : Unit → LoweringState → Prop}
    (hk : ∀ {s'}, s.After [b] s' → s'.scopes = s.scopes → s'.Supports signatures gives scope → Completes k s' Q) :
    Completes (do
      startBlock b
      lowerBody body
      branchTo join
      k) s Q := by
  refine (startBlock_completes hs hb).bind ?_
  rintro _ s₁ ⟨ha₁, hscopes₁, hs₁⟩
  have hp₁ := ha₁.supports (by simpa using hbe) hscopes₁ hp
  refine (hbody hs₁ hp₁).bind ?_
  rintro _ s₂ ⟨ha₂, hscopes₂, hends⟩
  have hjoin₂ := ha₂.waits (List.not_mem_nil) (ha₁.waits (by simpa using hbj) hjoin)
  refine (branchTo_completes ha₂.fit hjoin₂.2 hends).bind ?_
  rintro _ s₃ ⟨ha₃, hscopes₃, -⟩
  have ha := (ha₁.trans ha₂).trans ha₃
  have hscopes := hscopes₃.trans (hscopes₂.trans hscopes₁)
  exact hk ha hscopes (ha.supports (by simpa using hbe) hscopes hp)

/-- After the arms the join is placed, and the blocks made on the way are of no further concern. -/
theorem rejoin_completes {s₁ : LoweringState} {new : List BlockId} {join : BlockId} (ha : s.After new s₁)
    (hscopes : s₁.scopes = s.scopes) (hjoin : s₁.function.Waits join)
    (hnew : ∀ b ∈ new ++ [join], ¬ s.function.Waits b) :
    Completes (startBlock join) s₁ fun _ s' => s.After [] s' ∧ s'.scopes = s.scopes ∧ s'.Ends := by
  refine (startBlock_completes ha.fit hjoin).mono ?_
  rintro _ s₂ ⟨ha₂, hscopes₂, hs₂⟩
  exact ⟨(ha.trans ha₂).forget hnew, hscopes₂.trans hscopes, Or.inl hs₂.isOpen⟩

/-- A condition is lowered to a truth value. -/
theorem condition_completes (hs : s.Able) (hp : s.Supports signatures gives scope) {condition : Expr}
    (hc : condition.isElementary signatures scope = true) :
    Completes (do
      let c ← lowerExpr condition
      coerce c (.elementary .bool)) s fun c s' => s.Within s' ∧ s'.function.IsScalar c .bool := by
  refine (lowerExpr_completes condition hs hp hc).bind ?_
  rintro c s₁ ⟨hw₁, a, ha⟩
  refine (coerce_completes (hw₁.able hs) ha .bool).mono ?_
  rintro c' s₂ ⟨hw₂, hc'⟩
  exact ⟨hw₁.trans hw₂, hc'⟩

theorem branchElse_completes (hs : s.Able) (hp : s.Supports signatures gives scope) {condition : Expr}
    (hc : condition.isElementary signatures scope = true) {whenTrue whenFalse : Body} {span : Span}
    (hT : BodyCompletes signatures gives scope whenTrue) (hF : BodyCompletes signatures gives scope whenFalse) :
    Completes (lowerStatement (.branch condition whenTrue (some whenFalse) span)) s fun _ s' =>
      s.After [] s' ∧ s'.scopes = s.scopes ∧ s'.Ends := by
  rw [lowerStatement, ← bind_assoc]
  refine (condition_completes hs hp hc).bind ?_
  rintro c s₀ ⟨hw₀, hc⟩
  have hs₀ := hw₀.able hs
  refine (newBlock_completes hs₀).bind ?_
  rintro t s₁ ⟨hw₁, ht, htn⟩
  have hs₁ := hw₁.able hs₀
  refine (newBlock_completes hs₁).bind ?_
  rintro e s₂ ⟨hw₂, he, hen⟩
  have hs₂ := hw₂.able hs₁
  refine (newBlock_completes hs₂).bind ?_
  rintro join s₃ ⟨hw₃, hj, hjn⟩
  -- The three blocks are new, so they differ from one another and from every block that waited before.
  have hte : e ≠ t := fun h => hen (h ▸ ht.2)
  have htj : join ≠ t := fun h => hjn (h ▸ hw₂.isOpen ht.2)
  have hej : join ≠ e := fun h => hjn (h ▸ he.2)
  have hw : s.Within s₃ := ((hw₀.trans hw₁).trans hw₂).trans hw₃
  have hs₃ := hw.able hs
  have hp₃ := hw.supports hp
  have htw : s₃.function.Waits t := hw₃.waits (hw₂.waits ht)
  have hew : s₃.function.Waits e := hw₃.waits he
  have hnew : ∀ b ∈ [t, e, join], ¬ s.function.Waits b := by
    intro b hb hwait
    simp only [List.mem_cons, List.not_mem_nil, or_false] at hb
    rcases hb with rfl | rfl | rfl
    · exact htn (hw₀.isOpen hwait.2)
    · exact hen (hw₁.isOpen (hw₀.isOpen hwait.2))
    · exact hjn (hw₂.isOpen (hw₁.isOpen (hw₀.isOpen hwait.2)))
  have hend : ∀ b ∈ [t, e, join], s.endBlock ≠ b := fun b hb h => hnew b hb (h ▸ hp.ending)
  refine (branchOn_completes hs₃ ?_ htw.2 hew.2).bind ?_
  · exact hw₃.scalar (hw₂.scalar (hw₁.scalar hc))
  rintro _ s₄ ⟨ha₄, hscopes₄, -⟩
  have hend₄ : s₄.endBlock = s.endBlock := ha₄.endBlock.trans hw.endBlock
  refine arm_completes hT ha₄.fit (ha₄.supports (List.not_mem_nil) hscopes₄ hp₃) (ha₄.waits List.not_mem_nil htw)
    (ha₄.waits List.not_mem_nil hj) htj (hend₄ ▸ hend t (by simp)) ?_
  intro s₅ ha₅ hscopes₅ hp₅
  have hej₅ := ha₅.waits (by simpa using hte) (ha₄.waits List.not_mem_nil hew)
  have hjw₅ := ha₅.waits (by simpa using htj) (ha₄.waits List.not_mem_nil hj)
  have hend₅ : s₅.endBlock = s.endBlock := ha₅.endBlock.trans hend₄
  refine arm_completes hF ha₅.fit hp₅ hej₅ hjw₅ hej (hend₅ ▸ hend e (by simp)) ?_
  intro s₆ ha₆ hscopes₆ hp₆
  have hjw₆ := ha₆.waits (by simpa using hej) hjw₅
  refine rejoin_completes ((hw.after hs).trans (ha₄.trans (ha₅.trans ha₆))) ?_ hjw₆ hnew
  rw [hscopes₆, hscopes₅, hscopes₄, hw.scopes]

theorem branch_completes (hs : s.Able) (hp : s.Supports signatures gives scope) {condition : Expr}
    (hc : condition.isElementary signatures scope = true) {whenTrue : Body} {span : Span}
    (hT : BodyCompletes signatures gives scope whenTrue) :
    Completes (lowerStatement (.branch condition whenTrue none span)) s fun _ s' =>
      s.After [] s' ∧ s'.scopes = s.scopes ∧ s'.Ends := by
  rw [lowerStatement, ← bind_assoc]
  refine (condition_completes hs hp hc).bind ?_
  rintro c s₀ ⟨hw₀, hc⟩
  have hs₀ := hw₀.able hs
  refine (newBlock_completes hs₀).bind ?_
  rintro t s₁ ⟨hw₁, ht, htn⟩
  have hs₁ := hw₁.able hs₀
  refine (newBlock_completes hs₁).bind ?_
  rintro join s₂ ⟨hw₂, hj, hjn⟩
  have htj : join ≠ t := fun h => hjn (h ▸ ht.2)
  have hw : s.Within s₂ := (hw₀.trans hw₁).trans hw₂
  have htw : s₂.function.Waits t := hw₂.waits ht
  have hnew : ∀ b ∈ [t, join], ¬ s.function.Waits b := by
    intro b hb hwait
    simp only [List.mem_cons, List.not_mem_nil, or_false] at hb
    rcases hb with rfl | rfl
    · exact htn (hw₀.isOpen hwait.2)
    · exact hjn (hw₁.isOpen (hw₀.isOpen hwait.2))
  have hend : s.endBlock ≠ t := fun h => hnew t (by simp) (h ▸ hp.ending)
  refine (branchOn_completes (hw.able hs) (hw₂.scalar (hw₁.scalar hc)) htw.2 hj.2).bind ?_
  rintro _ s₃ ⟨ha₃, hscopes₃, -⟩
  have hend₃ : s₃.endBlock = s.endBlock := ha₃.endBlock.trans hw.endBlock
  refine arm_completes hT ha₃.fit (ha₃.supports List.not_mem_nil hscopes₃ (hw.supports hp))
    (ha₃.waits List.not_mem_nil htw) (ha₃.waits List.not_mem_nil hj) htj (hend₃ ▸ hend) ?_
  intro s₄ ha₄ hscopes₄ _
  have hjw₄ := ha₄.waits (by simpa using htj) (ha₃.waits List.not_mem_nil hj)
  refine rejoin_completes ((hw.after hs).trans (ha₃.trans ha₄)) ?_ hjw₄ hnew
  rw [hscopes₄, hscopes₃, hw.scopes]

theorem effect_completes (hs : s.Able) (hp : s.Supports signatures gives scope) {value : Expr}
    (he : value.isElementaryEffect signatures scope = true) :
    Completes (lowerExpr value) s fun _ s' => s.Within s' := by
  unfold Expr.isElementaryEffect at he
  rw [Bool.or_eq_true] at he
  rcases he with he | he
  · exact (lowerExpr_completes value hs hp he).mono fun _ _ h => h.1
  · split at he
    · next name args callee ty span =>
      rw [Bool.and_eq_true, List.any_eq_true] at he
      obtain ⟨hargs, t, ht, hcall⟩ := he
      rw [Bool.and_eq_true] at hcall
      exact (lowerCall_completes args hs hp hargs ht hcall.1 ty span).mono fun _ _ h => h.1
    · cases he

mutual

/-- **An elementary statement lowers, and leaves an open or a closed block.** -/
theorem lowerStatement_completes : (st : Statement) → ∀ {s : LoweringState} {scope : List String}, s.Able →
    s.Supports signatures gives scope → st.isElementary signatures gives scope = true →
    Completes (lowerStatement st) s fun _ s' => s.After [] s' ∧ s'.scopes.tail = s.scopes.tail ∧
      s'.Supports signatures gives (st.binds scope) ∧ s'.Ends
  | .declare _ _ _ _, s, _, hs, hp, he => declare_completes hs hp he
  | .assign name value _, s, scope, hs, hp, he => by
    rw [Statement.isElementary, Bool.and_eq_true, decide_eq_true_iff] at he
    rw [lowerStatement]
    refine (slotOf_completes hs.toFit (hp.binds name he.1)).bind ?_
    rintro slot _ ⟨rfl, e, hslot⟩
    refine (assigned_completes hs hp hslot he.2).mono fun _ s' hw => ?_
    exact ⟨hw.after hs, by rw [hw.scopes], hw.supports hp, Or.inl (hw.able hs).isOpen⟩
  | .give value _, s, scope, hs, hp, he => by
    rw [lowerStatement]
    refine (lowerReturn_completes hs hp he).mono ?_
    rintro _ s' ⟨ha, hscopes, hclosed⟩
    exact ⟨ha, by rw [hscopes], ha.supports List.not_mem_nil hscopes hp, Or.inr hclosed⟩
  | .branch condition whenTrue (some whenFalse) _, s, scope, hs, hp, he => by
    simp only [Statement.isElementary, Bool.and_eq_true] at he
    obtain ⟨⟨hc, hT⟩, hF⟩ := he
    refine (branchElse_completes hs hp hc (lowerBody_completes whenTrue hT) (lowerBody_completes whenFalse hF)).mono ?_
    rintro _ s' ⟨ha, hscopes, hends⟩
    exact ⟨ha, by rw [hscopes], ha.supports List.not_mem_nil hscopes hp, hends⟩
  | .branch condition whenTrue none _, s, scope, hs, hp, he => by
    simp only [Statement.isElementary, Bool.and_eq_true] at he
    refine (branch_completes hs hp he.1 (lowerBody_completes whenTrue he.2)).mono ?_
    rintro _ s' ⟨ha, hscopes, hends⟩
    exact ⟨ha, by rw [hscopes], ha.supports List.not_mem_nil hscopes hp, hends⟩
  | .effect value, s, scope, hs, hp, he => by
    rw [Statement.isElementary] at he
    rw [lowerStatement]
    refine (effect_completes hs hp he).bind fun _ s' hw => completes_pure ?_
    exact ⟨hw.after hs, by rw [hw.scopes], hw.supports hp, Or.inl (hw.able hs).isOpen⟩

theorem lowerBody_completes : (body : Body) → ∀ {scope : List String},
    body.isElementary signatures gives scope = true → BodyCompletes signatures gives scope body
  | ⟨statements, _, _⟩, scope, he, s, hs, hp => by
    rw [Body.isElementary] at he
    rw [lowerBody]
    have hs₀ : LoweringState.Able { s with scopes := [] :: s.scopes } := by
      refine ⟨{ hs.toFit with slots := ?_ }, hs.isOpen⟩
      simpa using hs.slots
    have hp₀ : LoweringState.Supports { s with scopes := [] :: s.scopes } signatures gives scope := by
      refine { hp with isScoped := List.cons_ne_nil _ _, binds := fun name hname => ?_ }
      obtain ⟨names, hnames, hmem⟩ := hp.binds name hname
      exact ⟨names, List.mem_cons_of_mem _ hnames, hmem⟩
    refine completes_inScope (lowerStatements_completes statements hs₀ hp₀ he) ?_
    rintro _ s' ⟨ha, htail, hends⟩
    have htail : s'.scopes.tail = s.scopes := htail
    have hfit : LoweringState.Fit { s' with scopes := s'.scopes.tail } :=
      { ha.fit with slots := fun names hn => ha.fit.slots names (List.mem_of_mem_tail hn) }
    exact ⟨⟨ha.unit, ha.endBlock, ha.changes, ha.waits, hfit⟩, htail, hends⟩

theorem lowerStatements_completes : (statements : List Statement) → ∀ {s : LoweringState} {scope : List String},
    s.Able → s.Supports signatures gives scope → Statement.areElementary signatures gives scope statements = true →
    Completes (lowerStatements statements) s fun _ s' => s.After [] s' ∧ s'.scopes.tail = s.scopes.tail ∧ s'.Ends
  | [], s, _, hs, _, _ => by
    rw [lowerStatements]
    exact completes_pure ⟨(LoweringState.Within.refl s).after hs, rfl, Or.inl hs.isOpen⟩
  | st :: rest, s, scope, hs, hp, he => by
    rw [Statement.areElementary, Bool.and_eq_true] at he
    rw [lowerStatements]
    refine (lowerStatement_completes st hs hp he.1).bind ?_
    rintro _ s₁ ⟨ha₁, htail₁, hp₁, hends⟩
    rcases hends with hopen | hclosed
    · refine completes_bind_of_gives (gives_isTerminated.2 ⟨Site.isTerminated_of_isOpen hopen, rfl⟩) ?_
      refine (lowerStatements_completes rest ⟨ha₁.fit, hopen⟩ hp₁ he.2).mono ?_
      rintro _ s₂ ⟨ha₂, htail₂, hends⟩
      exact ⟨ha₁.trans ha₂, htail₂.trans htail₁, hends⟩
    · -- What follows a statement that leaves is left out.
      refine completes_bind_of_gives (gives_isTerminated.2 ⟨Site.isTerminated_of_isClosed hclosed, rfl⟩) ?_
      have hskip : Gives (if rest.isEmpty then pure () else do
          let name ← functionName
          Action.report (.statementsSkipped name rest.length)) s₁ () s₁ := by
        by_cases hr : rest.isEmpty = true <;> simp [hr]
      exact completes_of_gives hskip ⟨ha₁, htail₁, Or.inr hclosed⟩

end

end Lowering

end BlockForm
