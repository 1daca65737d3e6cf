import BlockForm.Proofs.Spans

/-!
# BlockForm.Proofs.ExpressionRegions — the blocks of an expression

* `MatchBlocks.Lays` says which blocks a match makes, and that a case is left for the join only.
* `Lowering.Regional x`: from the end of the layout every successful run of `x` makes a region.  This is so of all work
  in the current block, and of one such step after another; a match is put together from the steps of
  `LoweringState.Spans`.
* `Lowering.lowerExpr_region`: every expression is lowered to a region, and every match lays out its blocks so.
-/

namespace BlockForm

open Action

/-! ## The blocks of a match -/

/-- A case of a match with the states before and after its body was lowered. -/
structure CaseRegion where
  block : BlockId
  before : LoweringState
  after : LoweringState

/-- The block belongs to the case: it is that of the case itself, or was made by its body. -/
def CaseRegion.Contains (r : CaseRegion) (b : BlockId) : Prop := b = r.block ∨ r.before.Created r.after b

/-- In `f` the region is that of the case.  All of its blocks lead to blocks of the region, but for the one in which the
body comes to its end, and that leads to the join. -/
structure CaseRegion.Encloses (r : CaseRegion) (c : MatchCase) (f : Function) (join : BlockId) : Prop where
  body : ∃ v, Gives (Lowering.lowerExpr c.body) r.before v r.after
  starts : r.before.current = r.block
  ends : r.Contains r.after.current
  stays : ∀ {b}, r.Contains b → b ≠ r.after.current → ∃ e, f.exit? b = some e ∧ f.LeadsInto e r.Contains
  leaves : ∃ t, f.exit? r.after.current = some (.branch t) ∧ f.labelTarget? t = some join

/-- What is lowered later leaves the region of a case as it is. -/
theorem CaseRegion.Encloses.grow {r : CaseRegion} {c : MatchCase} {f g : Function} {join : BlockId}
    (h : r.Encloses c f join) (hg : f.Grows g) : r.Encloses c g join where
  body := h.body
  starts := h.starts
  ends := h.ends
  stays hb hne := by
    obtain ⟨e, he, hto⟩ := h.stays hb hne
    exact ⟨e, hg.exit? he, hto.mono hg fun _ hd => hd⟩
  leaves := by
    obtain ⟨t, ht, hj⟩ := h.leaves
    exact ⟨t, hg.exit? ht, hg.labelTarget? hj⟩

/-- The blocks that a match makes of its own. -/
structure MatchBlocks where
  cases : List CaseRegion
  fatal : BlockId
  join : BlockId
  tests : List BlockId

/-- All of them. -/
def MatchBlocks.own (m : MatchBlocks) : List BlockId :=
  m.cases.map CaseRegion.block ++ ([m.fatal, m.join] ++ m.tests)

/-- The match of a scrutinee, which is lowered from `s` to `t`, makes these blocks on the way from `s` to `s'`.  There
is one for each case, one that is not to be reached, one at which the cases meet, and one for each of the `count` tests
but the first; those of the scrutinee and of the bodies are other ones. -/
structure MatchBlocks.Lays (m : MatchBlocks) (cases : List MatchCase) (count : Nat) (s t s' : LoweringState) :
    Prop where
  cases : List.Forall₂ (fun r c => r.Encloses c s'.function m.join) m.cases cases
  tests : m.tests.length = count - 1
  tested : ∀ b ∈ m.tests, ∃ condition taken otherwise,
    s'.function.exit? b = some (.condBranch condition taken otherwise)
  fatal : s'.function.exit? m.fatal = some .unreachable
  join : s'.current = m.join
  nodup : m.own.Nodup
  /-- The blocks of the match, of its scrutinee and of the bodies of its cases are all that is made. -/
  created : ∀ {b}, s.Created s' b ↔ b ∈ m.own ∨ s.Created t b ∨ ∃ r ∈ m.cases, r.before.Created r.after b
  apart : ∀ {b}, b ∈ m.own → ¬ s.Created t b ∧ ∀ r ∈ m.cases, ¬ r.before.Created r.after b

/-- A match after its scrutinee.  What the scrutinee has made is none of the blocks of the match. -/
theorem MatchBlocks.Lays.after {m : MatchBlocks} {cases : List MatchCase} {count : Nat} {s t g g' : LoweringState}
    (h : m.Lays cases count g g g') (hs : s.Spans t []) (hi : t.Inside g) (hg : g.function.Grows g'.function) :
    m.Lays cases count s t g' where
  cases := h.cases
  tests := h.tests
  tested := h.tested
  fatal := h.fatal
  join := h.join
  nodup := h.nodup
  created {b} := by
    have hsame : s.Created g b ↔ s.Created t b := by simp only [LoweringState.Created, hi.size]
    rw [LoweringState.created_trans (hs.grows.trans hi.grows) hg, h.created, hsame]
    simp only [LoweringState.not_created_self, false_or]
    tauto
  apart {b} hb := by
    refine ⟨fun hc => ?_, (h.apart hb).2⟩
    have hle := (h.created.2 (Or.inl hb)).1
    have hlt := hc.2
    have hsize := hi.size
    omega

namespace Lowering

open LoweringState

variable {α β : Type} {s g g' : LoweringState} {b join : BlockId} {ws : List BlockId} {a : Unit}

/-- Every successful run from the end of the layout makes a region. -/
def Regional (x : Lowering α) : Prop :=
  ∀ s a s', s.AtEnd → Gives x s a s' → s.Spans s' [] ∧ s'.function.IsOpen s'.current

theorem Straight.regional {x : Lowering α} (hx : Straight x) : Regional x := by
  intro s a s' hs h
  have hi := hx s a s' h
  exact ⟨hi.spans hs.last, (hi.atEnd hs).isOpen⟩

theorem Regional.bind {x : Lowering α} {k : α → Lowering β} (hx : Regional x) (hk : ∀ a, Regional (k a)) :
    Regional (x >>= k) := by
  intro s b s' hs h
  obtain ⟨a, t, h₁, h₂⟩ := gives_bind.1 h
  obtain ⟨hspan, hopen⟩ := hx s a t hs h₁
  obtain ⟨hspan', hopen'⟩ := hk a t b s' ⟨hopen, hspan.last⟩ h₂
  exact ⟨hspan.trans hspan', hopen'⟩

/-! ## Branches -/

theorem leave_of_branchTo (hopen : g.function.IsOpen g.current) (hb : g.function.Labelled b)
    (h : Gives (branchTo b) g a g') : ∃ t, g.function.labelTarget? t = some b ∧ Gives (leave (.branch t)) g a g' := by
  simp only [branchTo, gives_bind (x := isTerminated), gives_isTerminated, Site.isTerminated_of_isOpen hopen] at h
  obtain ⟨_, _, ⟨rfl, rfl⟩, h⟩ := h
  simp only [Bool.false_eq_true, if_false, gives_bind, gives_inFunction, Function.labelOf_gives] at h
  obtain ⟨_, _, ⟨_, ⟨⟨y, hy, rfl⟩, rfl⟩, rfl⟩, h⟩ := h
  obtain ⟨y', hy', hl⟩ := hb
  obtain rfl := Option.some.inj (hy.symm.trans hy')
  exact ⟨y.label, hl, h⟩

theorem leave_of_branchOn {condition : ValueId} {taken otherwise : BlockId} (ht : g.function.Labelled taken)
    (ho : g.function.Labelled otherwise) (h : Gives (branchOn condition taken otherwise) g a g') :
    ∃ t o, g.function.labelTarget? t = some taken ∧ g.function.labelTarget? o = some otherwise ∧
      Gives (leave (.condBranch condition t o)) g a g' := by
  simp only [branchOn, gives_bind, gives_inFunction, Function.labelOf_gives] at h
  obtain ⟨_, _, ⟨_, ⟨⟨y, hy, rfl⟩, rfl⟩, rfl⟩, _, _, ⟨_, ⟨⟨z, hz, rfl⟩, rfl⟩, rfl⟩, h⟩ := h
  obtain ⟨y', hy', hly⟩ := ht
  obtain ⟨z', hz', hlz⟩ := ho
  obtain rfl := Option.some.inj (hy.symm.trans hy')
  obtain rfl := Option.some.inj (hz.symm.trans hz')
  exact ⟨y.label, z.label, hly, hlz, h⟩

theorem branchTo_spans (h : Spans s g ws) (hopen : g.function.IsOpen g.current) (hb : b ∈ ws)
    (hrun : Gives (branchTo b) g a g') :
    Spans s g' ws ∧ ∃ t, Leaves g g' (.branch t) ∧ g'.function.labelTarget? t = some b := by
  obtain ⟨hmade, -, -, hlabel⟩ := h.waiting b hb
  obtain ⟨t, ht, hleave⟩ := leave_of_branchTo hopen hlabel hrun
  obtain ⟨hspan, hleft⟩ := h.leave (by simpa [Function.LeadsInto, Exit.targets, ht] using hmade) hleave
  exact ⟨hspan, t, hleft, hleft.grows.labelTarget? ht⟩

theorem branchOn_spans {condition : ValueId} {taken otherwise : BlockId} (h : Spans s g ws) (ht : taken ∈ ws)
    (ho : otherwise ∈ ws) (hrun : Gives (branchOn condition taken otherwise) g a g') :
    Spans s g' ws ∧ ∃ t o, Leaves g g' (.condBranch condition t o) := by
  obtain ⟨htm, -, -, htl⟩ := h.waiting taken ht
  obtain ⟨hom, -, -, hol⟩ := h.waiting otherwise ho
  obtain ⟨t, o, hlt, hlo, hleave⟩ := leave_of_branchOn htl hol hrun
  have hto : g.function.LeadsInto (.condBranch condition t o) (s.Created g) := by
    simpa [Function.LeadsInto, Exit.targets, hlt, hlo] using ⟨htm, hom⟩
  obtain ⟨hspan, hleft⟩ := h.leave hto hleave
  exact ⟨hspan, t, o, hleft⟩

/-! ## Matches -/

theorem caseTargets_spans (indices : List (List Nat)) : ∀ {g ws targets g'}, Spans s g ws →
    g.function.IsOpen g.current → Gives (caseTargets indices) g targets g' →
    Spans s g' (targets.map CaseTarget.block ++ ws) ∧ ∀ c, g.Created g' c ↔ c ∈ targets.map CaseTarget.block := by
  induction indices with
  | nil =>
    intro g ws targets g' h _ hrun
    simp only [caseTargets, gives_pure] at hrun
    obtain ⟨rfl, rfl⟩ := hrun
    exact ⟨h, created_iff_mem_nil rfl⟩
  | cons is rest ih =>
    intro g ws targets g' h hopen hrun
    simp only [caseTargets, gives_bind, gives_pure] at hrun
    obtain ⟨b, t, hb, targets, _, ht, rfl, rfl⟩ := hrun
    obtain ⟨h₁, hopen₁⟩ := h.newBlock hopen hb
    obtain ⟨hspan, hmade⟩ := ih h₁ hopen₁ ht
    refine ⟨hspan.perm List.perm_middle, fun c => ?_⟩
    rw [created_trans (newBlock_makes hb).grows (caseTargets_makes _ ht).2.grows, created_newBlock hb, hmade,
      List.map_cons, List.mem_cons]

/-- The tests of a match make one block for each test but the first.  Every block with a test ends in a branch on it. -/
theorem dispatch_spans {discriminant : ValueId} {fatal : BlockId} (tests : List (Nat × BlockId)) :
    ∀ {g ws a g'}, Spans s g ws → g.function.IsOpen g.current → fatal ∈ ws → (∀ p ∈ tests, p.2 ∈ ws) →
    Gives (dispatch discriminant fatal tests) g a g' → Spans s g' ws ∧ g'.function.IsClosed g'.current ∧
      ∃ bs : List BlockId, bs.Nodup ∧ bs.length = tests.length - 1 ∧ (∀ c, g.Created g' c ↔ c ∈ bs) ∧
        (tests ≠ [] → ∀ c ∈ g.current :: bs, ∃ condition taken otherwise,
          g'.function.exit? c = some (.condBranch condition taken otherwise)) := by
  induction tests with
  | nil =>
    intro g ws a g' h hopen hf _ hrun
    obtain ⟨hspan, t, hleft, -⟩ := branchTo_spans h hopen hf hrun
    exact ⟨hspan, hleft.isClosed, [], List.nodup_nil, rfl, created_iff_mem_nil hleft.size, nofun⟩
  | cons p rest ih =>
    obtain ⟨index, block⟩ := p
    intro g ws a g' h hopen hf htests hrun
    have hblock := htests _ (List.mem_cons_self ..)
    cases rest with
    | nil =>
      simp only [dispatch, gives_bind] at hrun
      obtain ⟨condition, g₁, htest, hbranch⟩ := hrun
      have hi := Straight.testMember discriminant index g condition g₁ htest
      obtain ⟨hspan, t, o, hleft⟩ := branchOn_spans (h.inside hi) hblock hf hbranch
      refine ⟨hspan, hleft.isClosed, [], List.nodup_nil, rfl, created_iff_mem_nil (hleft.size.trans hi.size), ?_⟩
      intro _ c hc
      rw [List.mem_singleton.1 hc, ← hi.current]
      exact ⟨condition, t, o, hleft.exit⟩
    | cons q rest =>
      simp only [dispatch, gives_bind] at hrun
      obtain ⟨condition, g₁, htest, next, g₂, hnew, _, g₃, hbranch, _, g₄, hstart, hrest⟩ := hrun
      have hi := Straight.testMember discriminant index g condition g₁ htest
      have hm := newBlock_makes hnew
      obtain ⟨h₂, -⟩ := (h.inside hi).newBlock (hi.current ▸ hi.isOpen hopen) hnew
      obtain ⟨h₃, t, o, hleft⟩ := branchOn_spans h₂ (List.mem_cons_of_mem _ hblock) (List.mem_cons_self ..) hbranch
      obtain ⟨h₄, hstarts⟩ := h₃.start hleft.isClosed hstart
      obtain ⟨hspan, hclosed, bs, hnodup, hlength, hmade, htested⟩ := ih h₄ hstarts.isOpen hf
        (fun p hp => htests p (List.mem_cons_of_mem _ hp)) hrest
      have dispatched : Made (fun _ => True) (dispatch discriminant fatal (q :: rest)) fun _ => True :=
        .dispatch trivial fatal (q :: rest)
      have hrest := dispatched.grows hrest
      -- The block of the next test is the only one that is made before that test.
      have hnext : ∀ c, g.Created g₄ c ↔ c = next := by
        intro c
        rw [← created_newBlock hnew]
        simp only [Created, hstarts.size, hleft.size, hi.size]
      have hg₄ := hi.grows.trans (hm.grows.trans (hleft.grows.trans hstarts.grows))
      refine ⟨hspan, hclosed, next :: bs, ?_, by simpa using hlength, fun c => ?_, fun _ c hc => ?_⟩
      · refine List.nodup_cons.2 ⟨fun hmem => ?_, hnodup⟩
        have hlt := ((hnext next).2 rfl).2
        have hle := ((hmade next).2 hmem).1
        omega
      · rw [created_trans hg₄ hrest, hnext, hmade, List.mem_cons]
      · rcases List.mem_cons.1 hc with rfl | hc
        · refine ⟨condition, t, o, (hstarts.grows.trans hrest).exit? ?_⟩
          rw [← hi.current, ← hm.current]
          exact hleft.exit
        · exact htested (by simp) c (hstarts.current ▸ hc)

/-- The name of a payload is the only thing that a case adds before its body, the current block aside. -/
theorem bindCase_inside {subject : ValueId} {indices : List Nat} {binding : Option String} {span : Span}
    {outer : List Scope} (hs : g.scopes = [] :: outer) (h : Gives (Site.bindCase subject indices binding span) g a g') :
    (∃ scope, g'.scopes = scope :: outer) ∧ Inside { g with scopes := outer } { g' with scopes := outer } := by
  cases binding with
  | none =>
    obtain ⟨-, rfl⟩ := gives_pure.1 h
    exact ⟨⟨_, hs⟩, .refl _⟩
  | some name =>
    simp only [Site.bindCase, bindPayload] at h
    split at h
    · simp only [gives_ite, not_gives_fault, and_false, or_false, gives_bind] at h
      obtain ⟨-, payload, t, hemit, hdefine⟩ := h
      have hi := Straight.emit _ g payload t hemit
      simp only [define, gives_modify, hi.scopes, hs] at hdefine
      subst hdefine
      exact ⟨⟨_, rfl⟩, hi.grows, hi.current, hi.size, hi.blockIds, hi.others, hi.exits, hi.returnSlot,
        hi.endBlock, rfl⟩
    · exact absurd h not_gives_fail

theorem Straight.storeCase (slot : Option ValueId) (v : ValueId) : Straight (Site.storeCase slot v) := by
  cases slot with
  | none => exact pure ()
  | some slot => exact store slot v

/-- The body of a case, with its scope around it, makes a region: the one that lowering the body makes. -/
theorem caseBody_spans {subject : ValueId} {slot : Option ValueId} {indices : List Nat} {binding : Option String}
    {span : Span} {body : Expr} (hbody : Regional (lowerExpr body)) (hg : g.AtEnd)
    (h : Gives (inScope do
      Site.bindCase subject indices binding span
      let v ← lowerExpr body
      Site.storeCase slot v) g a g') :
    Spans g g' [] ∧ g'.function.IsOpen g'.current ∧ ∃ t v t', Gives (lowerExpr body) t v t' ∧
      t.current = g.current ∧ t'.current = g'.current ∧ ∀ b, t.Created t' b ↔ g.Created g' b := by
  obtain ⟨t₃, hrun, rfl⟩ := gives_inScope.1 h
  obtain ⟨_, t₁, hbind, hrun⟩ := gives_bind.1 hrun
  obtain ⟨v, t₂, hlower, hstore⟩ := gives_bind.1 hrun
  obtain ⟨⟨scope, hscope⟩, hi⟩ := bindCase_inside rfl hbind
  have hat := hi.atEnd hg
  obtain ⟨hspan, hopen⟩ := hbody t₁ v t₂ ⟨hat.isOpen, hat.last⟩ hlower
  have hi' := Straight.storeCase slot v t₂ _ t₃ hstore
  have hspan' := hspan.inside hi'
  have htail : t₃.scopes.tail = g.scopes := by rw [hspan'.scopes, hscope, List.tail_cons]
  refine ⟨?_, hi'.current ▸ hi'.isOpen hopen, t₁, v, t₂, hlower, hi.current, hi'.current.symm, fun b => ?_⟩
  · rw [htail]
    exact (hi.spans hg.last).trans (hspan'.withScopes g.scopes)
  · have hsize : t₁.function.blocks.size = g.function.blocks.size := hi.size
    have hsize' := hi'.size
    simp only [Created]
    omega

/-- **A case is a region that is left for the join**: its block is started, its body lowered, and control goes on to the
join, which still waits. -/
theorem case_spans {subject : ValueId} {slot : Option ValueId} {indices : List Nat} {c : MatchCase}
    {rest : Lowering Unit} (hbody : Regional (lowerExpr c.body)) (h : Spans s g (b :: ws))
    (hclosed : g.function.IsClosed g.current) (hjoin : join ∈ ws)
    (hrun : Gives (do
      startBlock b
      inScope do
        Site.bindCase subject indices c.binding c.span
        let v ← lowerExpr c.body
        Site.storeCase slot v
      branchTo join
      rest) g a g') :
    ∃ (t : LoweringState) (r : CaseRegion), Gives rest t a g' ∧ Spans s t ws ∧ t.function.IsClosed t.current ∧
      g.function.Grows t.function ∧ r.block = b ∧ r.Encloses c t.function join ∧
      ∀ d, g.Created t d ↔ r.before.Created r.after d := by
  obtain ⟨_, g₁, hstart, hrun⟩ := gives_bind.1 hrun
  obtain ⟨_, g₂, hcase, hrun⟩ := gives_bind.1 hrun
  obtain ⟨_, g₃, hbranch, hrest⟩ := gives_bind.1 hrun
  obtain ⟨h₁, hstarts⟩ := h.start hclosed hstart
  obtain ⟨hspan, hopen, t, v, t', hlower, hbefore, hafter, hmade⟩ :=
    caseBody_spans hbody ⟨hstarts.isOpen, h₁.last⟩ hcase
  obtain ⟨h₃, label, hleft, hlabel⟩ := branchTo_spans (h₁.trans hspan) hopen hjoin hbranch
  refine ⟨g₃, ⟨b, t, t'⟩, hrest, h₃, hleft.isClosed, hstarts.grows.trans (hspan.grows.trans hleft.grows), rfl, ?_, ?_⟩
  · constructor
    case body => exact ⟨v, hlower⟩
    case starts => exact hbefore.trans hstarts.current
    case ends =>
      show t'.current = b ∨ t.Created t' t'.current
      rw [hmade, hafter, ← hstarts.current]
      exact hspan.here.imp_right And.left
    case stays =>
      intro d hd hne
      -- Every block of the region has got its exit since the block of the case was started.
      have hnew : g₁.function.exit? d = none ∧ g₂.function.IsClosed d := by
        have hne₂ : d ≠ g₂.current := fun he => hne (he.trans hafter.symm)
        rcases hd with hd | hd
        · obtain rfl : d = g₁.current := hd.trans hstarts.current.symm
          exact ⟨hstarts.isOpen.exit?, (hspan.here.resolve_left (Ne.symm hne₂)).2⟩
        · have hd : g₁.Created g₂ d := (hmade d).1 hd
          refine ⟨?_, (((hspan.settled hd).resolve_left List.not_mem_nil).2).resolve_left hne₂⟩
          rw [Function.exit?, Function.block?, Array.getElem?_eq_none hd.1]
          rfl
      obtain ⟨e, he⟩ := Function.isClosed_iff_exit?.1 hnew.2
      refine ⟨e, hleft.grows.exit? he, (hspan.exits hnew.1 he).mono hleft.grows fun d' hd' => ?_⟩
      exact Or.inr ((hmade d').2 hd')
    case leaves => exact ⟨label, hafter ▸ hleft.exit, hlabel⟩
  · intro d
    rw [hmade d]
    simp only [Created, hleft.size, hstarts.size]

/-- The cases of a match, whose blocks are the first of those that wait, make a region each and leave for the join. -/
def CasesSpan (cases : List MatchCase) : Prop :=
  ∀ {s g : LoweringState} {targets : List CaseTarget} {ws : List BlockId} {subject : ValueId} {slot : Option ValueId}
    {join : BlockId} {a : Unit} {g' : LoweringState}, Spans s g (targets.map CaseTarget.block ++ ws) →
    g.function.IsClosed g.current → join ∈ ws → targets.length = cases.length →
    Gives (lowerCases subject slot join targets cases) g a g' →
    Spans s g' ws ∧ g'.function.IsClosed g'.current ∧ g.function.Grows g'.function ∧ ∃ rs : List CaseRegion,
      rs.map CaseRegion.block = targets.map CaseTarget.block ∧
      List.Forall₂ (fun r c => r.Encloses c g'.function join) rs cases ∧
      ∀ d, g.Created g' d ↔ ∃ r ∈ rs, r.before.Created r.after d

theorem casesSpan_nil : CasesSpan [] := by
  intro s g targets ws subject slot join a g' h hclosed _ hlen hrun
  obtain rfl := List.length_eq_zero_iff.1 hlen
  simp only [lowerCases, gives_pure] at hrun
  obtain ⟨-, rfl⟩ := hrun
  refine ⟨h, hclosed, .refl _, [], rfl, .nil, fun d => ?_⟩
  rw [created_iff_mem_nil rfl]
  simp

theorem casesSpan_cons {c : MatchCase} {cases : List MatchCase} (hbody : Regional (lowerExpr c.body))
    (hcases : CasesSpan cases) : CasesSpan (c :: cases) := by
  obtain ⟨pattern, binding, body, symbols, span⟩ := c
  intro s g targets ws subject slot join a g' h hclosed hjoin hlen hrun
  obtain _ | ⟨target, targets⟩ := targets
  · simp at hlen
  rw [Site.lowerCases_cons] at hrun
  obtain ⟨t, r, hrest, ht, htclosed, hg, hblock, hr, hmade⟩ := case_spans hbody (b := target.block) h hclosed
    (List.mem_append_right _ hjoin) hrun
  obtain ⟨hspan, hclosed', hg', rs, hblocks, hrs, hmade'⟩ := hcases ht htclosed hjoin (by simpa using hlen) hrest
  refine ⟨hspan, hclosed', hg.trans hg', r :: rs, by simp [hblock, hblocks], .cons (hr.grow hg') hrs, fun d => ?_⟩
  rw [created_trans hg hg', hmade, hmade']
  simp

theorem length_tests (targets : List CaseTarget) :
    (tests targets).length = (targets.map CaseTarget.indices).flatten.length := by
  simp [tests, List.length_flatMap, List.length_flatten, Function.comp_def]

/-- A match goes out into its cases and comes back at its join. -/
theorem match_spans {subject : ValueId} {slot : Option ValueId} {indices : List (List Nat)} {cases : List MatchCase}
    {v : ValueId} (hlen : indices.length = cases.length) (hcases : CasesSpan cases) (hg : g.AtEnd)
    (hrun : Gives (do
      let discriminant ← emit (.getUnionIdx subject)
      let targets ← caseTargets indices
      let fatal ← newBlock
      let join ← newBlock
      dispatch discriminant fatal (tests targets)
      lowerCases subject slot join targets cases
      startBlock fatal
      leave .unreachable
      startBlock join
      match slot with
      | some slot => load slot
      | none => return Function.nilValue) g v g') :
    Spans g g' [] ∧ g'.function.IsOpen g'.current ∧ ∃ m : MatchBlocks, m.Lays cases indices.flatten.length g g g' := by
  simp only [gives_bind] at hrun
  obtain ⟨discriminant, g₁, hemit, targets, g₂, htargets, fatal, g₃, hfatal, join, g₄, hjoin, _, g₅, hdispatch, _, g₆,
    hlower, _, g₇, hstart, _, g₈, hleave, _, g₉, hrejoin, hload⟩ := hrun
  -- The blocks are made, those of the cases first.
  have hi := Straight.emit _ g discriminant g₁ hemit
  have hat := hi.atEnd hg
  obtain ⟨hindices, hm₂⟩ := caseTargets_makes indices htargets
  obtain ⟨h₂, hmade₂⟩ := caseTargets_spans indices (hi.spans hg.last) hat.isOpen htargets
  have hopen₂ : g₂.function.IsOpen g₂.current := by
    obtain ⟨x, hx, he⟩ := hat.isOpen
    exact ⟨x, by rw [hm₂.current]; exact hm₂.kept hx, he⟩
  obtain ⟨h₃, hopen₃⟩ := h₂.newBlock hopen₂ hfatal
  obtain ⟨h₄, hopen₄⟩ := h₃.newBlock hopen₃ hjoin
  have hwait : (join :: fatal :: (targets.map CaseTarget.block ++ [])).Perm
      (targets.map CaseTarget.block ++ [fatal, join]) := by
    rw [List.append_nil]
    exact (List.Perm.swap _ _ _).trans (@List.perm_append_comm _ [fatal, join] _)
  have h₄ := h₄.perm hwait
  -- The tests, the cases, the block that is not to be reached, and the join.
  obtain ⟨h₅, hclosed₅, bs, hbs, hlength, hmade₅, htested⟩ := dispatch_spans (tests targets) h₄ hopen₄ (by simp)
    (fun p hp => by
      obtain ⟨t, ht, hp⟩ := Site.mem_tests hp
      rw [hp]
      exact List.mem_append_left _ (List.mem_map_of_mem ht)) hdispatch
  have hcount : targets.length = cases.length := by
    rw [← hlen, ← hindices, List.length_map]
  obtain ⟨h₆, hclosed₆, hg₆, rs, hblocks, hrs, hmade₆⟩ := hcases h₅ hclosed₅ (by simp) hcount hlower
  obtain ⟨h₇, hstarts₇⟩ := h₆.start hclosed₆ hstart
  obtain ⟨h₈, hleft⟩ := h₇.leave (by simp [Function.LeadsInto, Exit.targets]) hleave
  obtain ⟨h₉, hstarts₉⟩ := h₈.start hleft.isClosed hrejoin
  have straight : Straight (match slot with
      | some slot => load slot
      | none => (Pure.pure Function.nilValue : Lowering ValueId)) := by
    cases slot with
    | some slot => exact .load slot
    | none => exact .pure _
  have hi' := straight g₉ v g' hload
  have hg₉ := hstarts₉.grows.trans hi'.grows
  have hg' := hg₆.trans (hstarts₇.grows.trans (hleft.grows.trans hg₉))
  have dispatched : Made (fun _ => True) (dispatch discriminant fatal (tests targets)) fun _ => True :=
    .dispatch trivial fatal (tests targets)
  have hg₅ := dispatched.grows hdispatch
  -- Which blocks were made before the cases, and which by them.
  have hm₄ := (newBlock_makes hfatal).grows.trans (newBlock_makes hjoin).grows
  have hown : ∀ b, g.Created g₅ b ↔ b ∈ targets.map CaseTarget.block ++ ([fatal, join] ++ bs) := by
    intro b
    have hsame : g.Created g₂ b ↔ g₁.Created g₂ b := by simp only [Created, hi.size]
    rw [created_trans h₄.grows hg₅, created_trans h₂.grows hm₄, hsame, hmade₂,
      created_trans (newBlock_makes hfatal).grows (newBlock_makes hjoin).grows, created_newBlock hfatal,
      created_newBlock hjoin, hmade₅]
    simp only [List.mem_append, List.mem_cons, List.not_mem_nil, or_false, or_assoc]
  have hbodies : ∀ b, g₅.Created g' b ↔ ∃ r ∈ rs, r.before.Created r.after b := by
    intro b
    rw [← hmade₆]
    simp only [Created, hi'.size, hstarts₉.size, hleft.size, hstarts₇.size]
  refine ⟨h₉.inside hi', hi'.current ▸ hi'.isOpen hstarts₉.isOpen, ⟨rs, fatal, join, bs⟩, ?_⟩
  have howns : MatchBlocks.own ⟨rs, fatal, join, bs⟩ = targets.map CaseTarget.block ++ ([fatal, join] ++ bs) := by
    rw [MatchBlocks.own, hblocks]
  constructor
  case cases => exact hrs.imp fun r c hr => hr.grow (hstarts₇.grows.trans (hleft.grows.trans hg₉))
  case tests => rw [← hindices, ← length_tests]; exact hlength
  case tested =>
    intro b hb
    have hsome : tests targets ≠ [] := by
      intro hnil
      have hpos := List.length_pos_of_mem hb
      rw [hlength, hnil] at hpos
      simp at hpos
    obtain ⟨condition, taken, otherwise, he⟩ := htested hsome b (List.mem_cons_of_mem _ hb)
    exact ⟨condition, taken, otherwise, hg'.exit? he⟩
  case fatal => exact hg₉.exit? (hstarts₇.current ▸ hleft.exit)
  case join => exact hi'.current.trans hstarts₉.current
  case nodup =>
    rw [howns, ← List.append_assoc]
    refine List.Nodup.append h₄.nodup hbs fun b hb hb' => ?_
    have hlt := (h₄.waiting b hb).1.2
    have hle := ((hmade₅ b).2 hb').1
    omega
  case created =>
    intro b
    rw [howns, created_trans h₅.grows hg', hown, hbodies]
    simp only [not_created_self, false_or]
  case apart =>
    intro b hb
    rw [howns, ← hown] at hb
    refine ⟨not_created_self, fun r hr hc => ?_⟩
    have hle := ((hbodies b).2 ⟨r, hr, hc⟩).1
    have hlt := hb.2
    omega

/-- A match makes a region, in which the blocks are laid out as said. -/
theorem choice_spans {scrutinee : Expr} {cases : List MatchCase} {ty : Ty} {span : Span} {v : ValueId}
    {s' : LoweringState} (hscrutinee : Regional (lowerExpr scrutinee)) (hcases : CasesSpan cases) (hs : s.AtEnd)
    (h : Gives (lowerExpr (.choice scrutinee cases ty span)) s v s') :
    Spans s s' [] ∧ s'.function.IsOpen s'.current ∧ ∃ subject t indices m, Gives (lowerExpr scrutinee) s subject t ∧
      coverage scrutinee.ty [] cases = .ok indices ∧ MatchBlocks.Lays m cases indices.flatten.length s t s' := by
  rw [lowerExpr] at h
  split at h
  · split at h
    · exact absurd h not_gives_fail
    · next indices hcov =>
      obtain ⟨subject, t, hsubject, h⟩ := gives_bind.1 h
      obtain ⟨slot, g, hslot, h⟩ := gives_bind.1 h
      obtain ⟨ht, hopen⟩ := hscrutinee s subject t hs hsubject
      have hi := Straight.resultSlot ty t slot g hslot
      have hg := hi.atEnd ⟨hopen, ht.last⟩
      obtain ⟨hspan, hopen', m, hm⟩ := match_spans (Site.coverage_length hcov) hcases hg h
      exact ⟨(ht.inside hi).trans hspan, hopen', subject, t, indices, m, hsubject, hcov, hm.after ht hi hspan.grows⟩
  · simp [functionName, gives_bind] at h

/-! ## Expressions -/

mutual

theorem lowerExpr_regional : (e : Expr) → Regional (lowerExpr e)
  | .constant c ty _ => by
    rw [lowerExpr]
    exact (Straight.lowerConstant c ty).regional
  | .text content _ _ => by
    rw [lowerExpr]
    exact (Straight.lowerLiteral content).regional
  | .ident name _ _ => by
    rw [lowerExpr]
    exact ((Straight.slotOf name).bind fun slot => .load slot).regional
  | .binary op left right ty _ => by
    rw [lowerExpr]
    refine (lowerExpr_regional left).bind fun lhs => (lowerExpr_regional right).bind fun rhs => ?_
    exact (Straight.lowerOperator op ty lhs rhs).regional
  | .call name [arg] callee true ty _ => by
    rw [lowerExpr]
    refine (Straight.lowerType ty).regional.bind fun target => (lowerExpr_regional arg).bind fun v => ?_
    exact (Straight.coerce v target).regional
  | .call name [] callee true ty _ => by
    simp only [lowerExpr]
    exact (Straight.fault _).regional
  | .call name (_ :: _ :: _) callee true ty _ => by
    simp only [lowerExpr]
    exact (Straight.fault _).regional
  | .call name args callee false ty _ => by
    rw [lowerExpr.eq_def]
    simp only [Bool.false_eq_true, if_false]
    split
    · refine (Straight.lowerType ty).regional.bind fun lowered => (Straight.emit _).regional.bind fun slot => ?_
      refine (Straight.prepare slot _).regional.bind fun site => (storeAll_regional args site 0).bind fun _ => ?_
      exact (Straight.pure slot).regional
    · refine (lowerArguments_regional args name callee args.length 0).bind fun values => ?_
      exact (Straight.finishCall name values).regional
  | .choice scrutinee cases ty _ => by
    intro s v s' hs h
    obtain ⟨hspan, hopen, -⟩ := choice_spans (lowerExpr_regional scrutinee) (lowerCases_span cases) hs h
    exact ⟨hspan, hopen⟩

theorem storeAll_regional : (args : List Expr) → ∀ site index, Regional (storeAll site index args)
  | [], _, _ => by
    rw [storeAll]
    exact (Straight.pure ()).regional
  | arg :: args, site, index => by
    rw [storeAll]
    refine (lowerExpr_regional arg).bind fun v => (Straight.storeArgument site index v).regional.bind fun _ => ?_
    exact storeAll_regional args site (index + 1)

theorem lowerArguments_regional : (args : List Expr) → ∀ name callee total position,
    Regional (lowerArguments name callee total position args)
  | [], _, _, _, _ => by
    rw [lowerArguments]
    exact (Straight.pure []).regional
  | arg :: args, name, callee, total, position => by
    rw [lowerArguments]
    refine (Straight.need _ _).regional.bind fun param => (Straight.lowerType param).regional.bind fun lowered => ?_
    have rest : ∀ v, Regional (do
        let vs ← lowerArguments name callee total (position + 1) args
        return v :: vs) := fun v =>
      (lowerArguments_regional args name callee total (position + 1)).bind fun vs => (Straight.pure (v :: vs)).regional
    dsimp only
    split
    · refine (Straight.emit _).regional.bind fun slot => (Straight.prepare slot _).regional.bind fun site => ?_
      refine (lowerExpr_regional arg).bind fun v => (Straight.storeArgument site 0 v).regional.bind fun _ => ?_
      exact (Straight.pure slot).regional.bind rest
    · exact (lowerExpr_regional arg).bind fun v => (Straight.coerce v _).regional.bind rest

theorem lowerCases_span : (cases : List MatchCase) → CasesSpan cases
  | [] => casesSpan_nil
  | ⟨pattern, binding, body, symbols, span⟩ :: cases =>
    casesSpan_cons (c := ⟨pattern, binding, body, symbols, span⟩) (lowerExpr_regional body) (lowerCases_span cases)

end

/-- **An expression is lowered to a region of its own.**  From any state in which the current block is open and is the
last of the layout, whatever else the state may be, a run that succeeds ends in such a state again.  Every other block
it has made is placed and has its exit; every exit it has set leads to blocks it has made; the block that was current
has its instructions as before at its start; the other blocks, the label of the end, the slot for the returned value
and the scopes are what they were.  If the expression is a match of `K` cases, and the cases cover `T` members when
each is counted as often as it is covered, then the blocks that are made, apart from those of the scrutinee and of the
bodies, are `K` for the cases, one that is not to be reached, one join, and `T - 1` for tests (none if `T` is zero);
and control leaves the region of a case for that join only. -/
theorem lowerExpr_region {e : Expr} {s s' : LoweringState} {v : ValueId} (hs : s.AtEnd)
    (h : Gives (lowerExpr e) s v s') :
    s.Region s' ∧ ∀ scrutinee cases ty span, e = .choice scrutinee cases ty span →
      ∃ subject t indices m, Gives (lowerExpr scrutinee) s subject t ∧
        coverage scrutinee.ty [] cases = .ok indices ∧ MatchBlocks.Lays m cases indices.flatten.length s t s' := by
  obtain ⟨hspan, hopen⟩ := lowerExpr_regional e s v s' hs h
  refine ⟨hspan.region hopen, ?_⟩
  rintro scrutinee cases ty span rfl
  exact (choice_spans (lowerExpr_regional scrutinee) (lowerCases_span cases) hs h).2.2

end Lowering

namespace Sample

/-- The state in which `value`, among several members, is about to be matched. -/
def beforeMatch : LoweringState :=
  ((do
    let ty ← Lowering.lowerType several
    let slot ← Lowering.alloca ty
    Lowering.define "value" slot) beforeStatements).state

/-- The four cases of the match cover five members in all, so that it has four blocks for tests. -/
theorem several_region : beforeMatch.AtEnd ∧ ∃ v s', Gives (Lowering.lowerExpr severalMatch) beforeMatch v s' ∧
    beforeMatch.Region s' ∧ ∃ subject t indices m,
      Gives (Lowering.lowerExpr (.ident "value" several default)) beforeMatch subject t ∧
      coverage several [] severalCases = .ok indices ∧ indices.flatten.length = 5 ∧
      MatchBlocks.Lays m severalCases indices.flatten.length beforeMatch t s' := by
  have hopen : (beforeMatch.function.block? beforeMatch.current).map Block.exit = some none := by decide +kernel
  have hlast : beforeMatch.function.blockIds.getLast? = some beforeMatch.current := by decide +kernel
  have hat : beforeMatch.AtEnd := ⟨Option.map_eq_some_iff.1 hopen, hlast⟩
  have hrun : (Lowering.lowerExpr severalMatch beforeMatch).result.toOption.isSome = true := by decide +kernel
  obtain ⟨v, hgives⟩ := gives_of_isSome hrun
  obtain ⟨hregion, hmatch⟩ := Lowering.lowerExpr_region hat hgives
  obtain ⟨subject, t, indices, m, hsubject, hcov, hlays⟩ := hmatch _ _ _ _ rfl
  have hcount : (coverage several [] severalCases).toOption.map (fun is => is.flatten.length) = some 5 := by
    decide +kernel
  have hfive : indices.flatten.length = 5 := by
    have hindices : coverage several [] severalCases = .ok indices := hcov
    rw [hindices] at hcount
    exact Option.some.inj hcount
  exact ⟨hat, v, _, hgives, hregion, subject, t, indices, m, hsubject, hcov, hfive, hlays⟩

end Sample

end BlockForm
