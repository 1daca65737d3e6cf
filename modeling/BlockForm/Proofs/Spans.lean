import BlockForm.Proofs.Dispatch
import BlockForm.Proofs.Straight

/-!
# BlockForm.Proofs.Spans — regions and how they are put together

Lowering an expression may open blocks of its own.  `LoweringState.Region s s'` says that whatever was opened on the
way from `s` to `s'` was also closed: control comes in at the block that was current and goes on in the block that is
current afterwards, and nothing outside of what lies between them is touched.

`LoweringState.Spans s g waits` is the same half way: `waits` are the blocks that have been made since `s` and have no
place yet.  Making a block adds one, starting it takes one away, leaving the current block adds an exit, and a whole
region in between changes none of them (`Spans.trans`).
-/

namespace BlockForm

open Action

/-- The exit leads to blocks of one kind only. -/
def Function.LeadsInto (f : Function) (e : Exit) (P : BlockId → Prop) : Prop :=
  ∀ t ∈ e.targets, ∃ c, f.labelTarget? t = some c ∧ P c

theorem Function.LeadsInto.mono {f g : Function} {e : Exit} {P Q : BlockId → Prop} (h : f.LeadsInto e P)
    (hg : f.Grows g) (hPQ : ∀ b, P b → Q b) : g.LeadsInto e Q := by
  intro t ht
  obtain ⟨c, hc, hP⟩ := h t ht
  exact ⟨c, hg.labelTarget? hc, hPQ c hP⟩

namespace LoweringState

/-- Lowering goes on at the end of the layout: the current block is open and was placed last. -/
structure AtEnd (s : LoweringState) : Prop where
  isOpen : s.function.IsOpen s.current
  last : s.function.blockIds.getLast? = some s.current

/-- The block was made on the way from `s` to `s'`. -/
def Created (s s' : LoweringState) (b : BlockId) : Prop :=
  s.function.blocks.size ≤ b.index ∧ b.index < s'.function.blocks.size

/-- What has been made on the way from `s` to `s'` is a region with one way in, through the block that was current, and
one way out, through the block that is, and nothing else has changed. -/
structure Region (s s' : LoweringState) : Prop where
  atEnd : s'.AtEnd
  /-- The current block is the one it was, or else that one has been left. -/
  here : s'.current = s.current ∨ (s.Created s' s'.current ∧ s'.function.IsClosed s.current)
  /-- Every other block that was made is placed and has its exit. -/
  finished : ∀ {b}, s.Created s' b → b ≠ s'.current → b ∈ s'.function.blockIds ∧ s'.function.IsClosed b
  /-- Nothing but what was made is placed after what was there. -/
  layout : ∃ bs, s'.function.blockIds = s.function.blockIds ++ bs ∧ ∀ b ∈ bs, s.Created s' b
  /-- Every exit that is new leads to blocks that were made. -/
  exits : ∀ {b e}, s.function.exit? b = none → s'.function.exit? b = some e →
    s'.function.LeadsInto e (s.Created s')
  /-- The block that was current keeps its label and, at its start, its instructions. -/
  taken : ∀ {x}, s.function.block? s.current = some x → ∃ y, s'.function.block? s.current = some y ∧
    y.label = x.label ∧ x.instructions.toList <+: y.instructions.toList
  others : ∀ {b x}, s.function.block? b = some x → b ≠ s.current → s'.function.block? b = some x
  endLabel : s'.function.endLabel = s.function.endLabel
  returnSlot : s'.function.returnSlot = s.function.returnSlot
  endBlock : s'.endBlock = s.endBlock
  scopes : s'.scopes = s.scopes

/-- A region that is being made: the blocks of `waits` are still to be placed. -/
structure Spans (s s' : LoweringState) (waits : List BlockId) : Prop where
  grows : s.function.Grows s'.function
  last : s'.function.blockIds.getLast? = some s'.current
  here : s'.current = s.current ∨ (s.Created s' s'.current ∧ s'.function.IsClosed s.current)
  waiting : ∀ b ∈ waits, s.Created s' b ∧ b ≠ s'.current ∧ s'.function.IsOpen b ∧ s'.function.Labelled b
  nodup : waits.Nodup
  settled : ∀ {b}, s.Created s' b →
    b ∈ waits ∨ (b ∈ s'.function.blockIds ∧ (b = s'.current ∨ s'.function.IsClosed b))
  layout : ∃ bs, s'.function.blockIds = s.function.blockIds ++ bs ∧ ∀ b ∈ bs, s.Created s' b
  exits : ∀ {b e}, s.function.exit? b = none → s'.function.exit? b = some e →
    s'.function.LeadsInto e (s.Created s')
  others : ∀ {b x}, s.function.block? b = some x → b ≠ s.current → s'.function.block? b = some x
  returnSlot : s'.function.returnSlot = s.function.returnSlot
  endBlock : s'.endBlock = s.endBlock
  scopes : s'.scopes = s.scopes

/-- The current block has been left by the exit. -/
structure Leaves (s s' : LoweringState) (e : Exit) : Prop where
  grows : s.function.Grows s'.function
  current : s'.current = s.current
  size : s'.function.blocks.size = s.function.blocks.size
  exit : s'.function.exit? s.current = some e

/-- Lowering has gone on in another block. -/
structure Starts (s s' : LoweringState) (b : BlockId) : Prop where
  grows : s.function.Grows s'.function
  current : s'.current = b
  size : s'.function.blocks.size = s.function.blocks.size
  isOpen : s'.function.IsOpen s'.current

variable {s g g' : LoweringState} {b : BlockId} {ws : List BlockId} {a : Unit} {e : Exit}

theorem Leaves.isClosed (h : Leaves g g' e) : g'.function.IsClosed g'.current := by
  rw [h.current]
  exact Function.isClosed_iff_exit?.2 ⟨e, h.exit⟩

/-! ## Blocks that are made -/

theorem created_trans (h₁ : s.function.Grows g.function) (h₂ : g.function.Grows g'.function) :
    s.Created g' b ↔ s.Created g b ∨ g.Created g' b := by
  have := h₁.blocks_size_le
  have := h₂.blocks_size_le
  unfold Created
  omega

theorem created_of_size (h : g.function.blocks.size = g'.function.blocks.size) : s.Created g b ↔ s.Created g' b := by
  unfold Created
  omega

theorem not_created_self : ¬ s.Created s b := by
  unfold Created
  omega

theorem created_iff_mem_nil (h : g'.function.blocks.size = g.function.blocks.size) (b : BlockId) :
    g.Created g' b ↔ b ∈ ([] : List BlockId) := by
  simp only [Created, List.not_mem_nil, iff_false]
  omega

/-- A block that was made later is none that was there. -/
theorem Created.ne_of_block? {x : Block} {c : BlockId} (h : s.Created g b) (hx : s.function.block? c = some x) :
    c ≠ b := by
  rintro rfl
  have hlt := Function.block?_lt hx
  have hle := h.1
  omega

theorem created_newBlock {c : BlockId} (h : Gives Lowering.newBlock g b g') : g.Created g' c ↔ c = b := by
  obtain ⟨f, hf, rfl⟩ := Lowering.gives_inFunction.1 h
  obtain ⟨-, -, -, -, rfl, rfl⟩ := Function.newBlock_gives hf
  obtain ⟨i⟩ := c
  have hsize : g.function.withLabel.blocks.size = g.function.blocks.size + 1 := by simp [Function.withLabel]
  simp only [Created, Function.nextBlock, hsize, Handle.mk.injEq]
  omega

theorem Inside.atEnd (h : Inside g g') (hg : g.AtEnd) : g'.AtEnd := by
  refine ⟨?_, ?_⟩
  · rw [h.current]
    exact h.isOpen hg.isOpen
  · rw [h.blockIds, h.current]
    exact hg.last

/-! ## Regions and how they are put together -/

theorem Spans.region (h : Spans s g []) (hopen : g.function.IsOpen g.current) : Region s g where
  atEnd := ⟨hopen, h.last⟩
  here := h.here
  finished hb hne := by
    obtain ⟨hp, hc⟩ := (h.settled hb).resolve_left List.not_mem_nil
    exact ⟨hp, hc.resolve_left hne⟩
  layout := h.layout
  exits := h.exits
  taken hx := by
    obtain ⟨y, hy, hxy⟩ := h.grows.block hx
    exact ⟨y, hy, hxy.label, hxy.instructions⟩
  others := h.others
  endLabel := h.grows.endLabel
  returnSlot := h.returnSlot
  endBlock := h.endBlock
  scopes := h.scopes

/-- Work in the current block is a region without blocks. -/
theorem Inside.spans (h : Inside g g') (hg : g.function.blockIds.getLast? = some g.current) : Spans g g' [] where
  grows := h.grows
  last := by rw [h.blockIds, h.current]; exact hg
  here := Or.inl h.current
  waiting := by simp
  nodup := List.nodup_nil
  settled hb := by
    have hsize := h.size
    obtain ⟨h₁, h₂⟩ := hb
    omega
  layout := ⟨[], by rw [h.blockIds, List.append_nil], by simp⟩
  exits hnone hsome := by
    rw [h.exits, hnone] at hsome
    cases hsome
  others hx hne := (h.others hne).trans hx
  returnSlot := h.returnSlot
  endBlock := h.endBlock
  scopes := h.scopes

namespace Spans

/-- The other blocks that were there are not the current one. -/
theorem ne_current {x : Block} (h : Spans s g ws) (hx : s.function.block? b = some x) (hne : b ≠ s.current) :
    b ≠ g.current := by
  rcases h.here with hg | ⟨hg, -⟩
  · rwa [hg]
  · exact hg.ne_of_block? hx

/-- **A region inside a region**: it adds its blocks, and those that wait still do. -/
theorem trans (h₁ : Spans s g ws) (h₂ : Spans g g' []) : Spans s g' ws where
  grows := h₁.grows.trans h₂.grows
  last := h₂.last
  here := by
    have hmade := fun b => created_trans (b := b) h₁.grows h₂.grows
    rcases h₁.here with hg | ⟨hg, hc⟩
    · rcases h₂.here with hg' | ⟨hg', hc'⟩
      · exact Or.inl (hg'.trans hg)
      · exact Or.inr ⟨(hmade _).2 (Or.inr hg'), hg ▸ hc'⟩
    · rcases h₂.here with hg' | ⟨hg', -⟩
      · exact Or.inr ⟨(hmade _).2 (Or.inl (hg' ▸ hg)), hc.grow h₂.grows⟩
      · exact Or.inr ⟨(hmade _).2 (Or.inr hg'), hc.grow h₂.grows⟩
  waiting b hb := by
    obtain ⟨hc, hne, ⟨x, hx, hopen⟩, hl⟩ := h₁.waiting b hb
    refine ⟨(created_trans h₁.grows h₂.grows).2 (Or.inl hc), ?_, ⟨x, h₂.others hx hne, hopen⟩, hl.grow h₂.grows⟩
    rcases h₂.here with hg' | ⟨hg', -⟩
    · rwa [hg']
    · exact hg'.ne_of_block? hx
  nodup := h₁.nodup
  settled hb := by
    rcases (created_trans h₁.grows h₂.grows).1 hb with hb | hb
    · refine (h₁.settled hb).imp_right fun ⟨hp, hc⟩ => ⟨h₂.grows.blockIds.subset hp, ?_⟩
      rcases hc with rfl | hc
      · exact h₂.here.imp Eq.symm And.right
      · exact Or.inr (hc.grow h₂.grows)
    · exact Or.inr ((h₂.settled hb).resolve_left List.not_mem_nil)
  layout := by
    obtain ⟨bs, hbs, hm⟩ := h₁.layout
    obtain ⟨cs, hcs, hm'⟩ := h₂.layout
    refine ⟨bs ++ cs, by rw [hcs, hbs, List.append_assoc], fun b hb => ?_⟩
    exact (created_trans h₁.grows h₂.grows).2 ((List.mem_append.1 hb).imp (hm b) (hm' b))
  exits {b e} hnone hsome := by
    have hmade := fun b => created_trans (b := b) h₁.grows h₂.grows
    cases hg : g.function.exit? b with
    | none => exact (h₂.exits hg hsome).mono (.refl _) fun c hc => (hmade c).2 (Or.inr hc)
    | some e' =>
      obtain rfl : e' = e := Option.some.inj ((h₂.grows.exit? hg).symm.trans hsome)
      exact (h₁.exits hnone hg).mono h₂.grows fun c hc => (hmade c).2 (Or.inl hc)
  others hx hne := h₂.others (h₁.others hx hne) (h₁.ne_current hx hne)
  returnSlot := h₂.returnSlot.trans h₁.returnSlot
  endBlock := h₂.endBlock.trans h₁.endBlock
  scopes := h₂.scopes.trans h₁.scopes

theorem inside (h : Spans s g ws) (hi : Inside g g') : Spans s g' ws := h.trans (hi.spans h.last)

theorem perm {vs : List BlockId} (h : Spans s g ws) (hp : ws.Perm vs) : Spans s g vs :=
  { h with
    waiting := fun b hb => h.waiting b (hp.mem_iff.2 hb)
    nodup := hp.nodup_iff.1 h.nodup
    settled := fun hb => (h.settled hb).imp_left hp.mem_iff.1 }

/-- Names that come and go around a region make no difference to it. -/
theorem withScopes (h : Spans s g ws) (scopes : List Scope) :
    Spans { s with scopes := scopes } { g with scopes := scopes } ws :=
  ⟨h.grows, h.last, h.here, h.waiting, h.nodup, h.settled, h.layout, h.exits, h.others, h.returnSlot,
    h.endBlock, rfl⟩

/-- A block that is made waits. -/
theorem newBlock (h : Spans s g ws) (hopen : g.function.IsOpen g.current) (hrun : Gives Lowering.newBlock g b g') :
    Spans s g' (b :: ws) ∧ g'.function.IsOpen g'.current := by
  have hnew := fun c => created_newBlock (c := c) hrun
  have hm := Lowering.newBlock_makes hrun
  obtain ⟨f, hf, rfl⟩ := Lowering.gives_inFunction.1 hrun
  obtain ⟨-, -, -, -, rfl, rfl⟩ := Function.newBlock_gives hf
  have hmade := fun c => created_trans (b := c) h.grows hm.grows
  have kept : ∀ {c}, g.function.IsOpen c → g.function.withLabel.IsOpen c := by
    rintro c ⟨x, hx, he⟩
    exact ⟨x, hm.kept hx, he⟩
  have hfresh : ∀ {c}, g.function.IsOpen c → c ≠ g.function.nextBlock := by
    rintro c ⟨x, hx, -⟩ rfl
    exact absurd ((hm.fresh _ (List.mem_singleton_self _)).symm.trans hx) (by simp)
  have hexit : ∀ c, g.function.withLabel.exit? c = g.function.exit? c := by
    intro c
    rw [Function.exit?, Function.block?_withLabel_eq]
    split
    · next hc =>
      rw [Function.exit?, hc, hm.fresh _ (List.mem_singleton_self _)]
      rfl
    · rfl
  refine ⟨?_, kept hopen⟩
  constructor
  case grows => exact h.grows.trans hm.grows
  case last => exact h.last
  case here => exact h.here.imp_right (And.imp (fun hg => (hmade _).2 (Or.inl hg)) (·.grow hm.grows))
  case waiting =>
    intro c hc
    rcases List.mem_cons.1 hc with rfl | hc
    · exact ⟨(hmade _).2 (Or.inr ((hnew _).2 rfl)), (hfresh hopen).symm,
        ⟨_, (Function.block?_withLabel_eq _).trans (if_pos rfl), rfl⟩, g.function.labelled_withLabel⟩
    · obtain ⟨hc, hne, ho, hl⟩ := h.waiting c hc
      exact ⟨(hmade c).2 (Or.inl hc), hne, kept ho, hl.grow hm.grows⟩
  case nodup => exact List.nodup_cons.2 ⟨fun hc => hfresh (h.waiting _ hc).2.2.1 rfl, h.nodup⟩
  case settled =>
    intro c hc
    rcases (hmade c).1 hc with hc | hc
    · exact (h.settled hc).imp (List.mem_cons_of_mem _) (And.imp_right (Or.imp_right (·.grow hm.grows)))
    · exact Or.inl (List.mem_cons.2 (Or.inl ((hnew c).1 hc)))
  case layout =>
    obtain ⟨bs, hbs, hc⟩ := h.layout
    exact ⟨bs, hbs, fun c hcs => (hmade c).2 (Or.inl (hc c hcs))⟩
  case exits =>
    intro c e hnone hsome
    rw [hexit] at hsome
    exact (h.exits hnone hsome).mono hm.grows fun d hd => (hmade d).2 (Or.inl hd)
  case others => exact fun hx hne => hm.kept (h.others hx hne)
  case returnSlot => exact h.returnSlot
  case endBlock => exact h.endBlock
  case scopes => exact h.scopes

/-- The current block is left for blocks of the region. -/
theorem leave (h : Spans s g ws) (hto : g.function.LeadsInto e (s.Created g)) (hrun : Gives (Lowering.leave e) g a g') :
    Spans s g' ws ∧ Leaves g g' e := by
  have hleft := Lowering.exit_of_leave hrun (.refl _)
  obtain ⟨f, hf, rfl⟩ := Lowering.gives_leave.1 hrun
  obtain ⟨-, x, ⟨hx, hopen⟩, rfl⟩ := Function.setExit_gives.1 hf
  have hg : g.function.Grows _ := Function.grows_withExit hx hopen e
  have hblock := Function.block?_withExit hx e
  have hsize : (g.function.withExit g.current x e).blocks.size = g.function.blocks.size := by
    simp [Function.withExit, Function.put]
  have hmade : ∀ c, s.Created { g with function := g.function.withExit g.current x e } c ↔ s.Created g c :=
    fun c => created_of_size hsize
  have kept : ∀ {c y}, g.function.block? c = some y → c ≠ g.current →
      (g.function.withExit g.current x e).block? c = some y := fun hy hne => by rw [hblock, if_neg hne, hy]
  refine ⟨?_, hg, rfl, hsize, hleft⟩
  constructor
  case grows => exact h.grows.trans hg
  case last => exact h.last
  case here => exact h.here.imp_right (And.imp (hmade _).2 (·.grow hg))
  case waiting =>
    intro c hc
    obtain ⟨hc, hne, ⟨y, hy, he⟩, hl⟩ := h.waiting c hc
    exact ⟨(hmade c).2 hc, hne, ⟨y, kept hy hne, he⟩, hl.grow hg⟩
  case nodup => exact h.nodup
  case settled =>
    intro c hc
    exact (h.settled ((hmade c).1 hc)).imp_right (And.imp_right (Or.imp_right (·.grow hg)))
  case layout =>
    obtain ⟨bs, hbs, hc⟩ := h.layout
    exact ⟨bs, hbs, fun c hcs => (hmade c).2 (hc c hcs)⟩
  case exits =>
    intro c e' hnone hsome
    by_cases hcc : c = g.current
    · rw [hcc] at hsome
      obtain rfl : e = e' := Option.some.inj (hleft.symm.trans hsome)
      exact hto.mono hg fun d hd => (hmade d).2 hd
    · rw [Function.exit?, hblock, if_neg hcc] at hsome
      exact (h.exits hnone hsome).mono hg fun d hd => (hmade d).2 hd
  case others => exact fun hy hne => kept (h.others hy hne) (h.ne_current hy hne)
  case returnSlot => exact h.returnSlot
  case endBlock => exact h.endBlock
  case scopes => exact h.scopes

/-- A block that waits is placed, once the one before it has been left. -/
theorem start (h : Spans s g (b :: ws)) (hclosed : g.function.IsClosed g.current)
    (hrun : Gives (Lowering.startBlock b) g a g') :
    Spans s g' ws ∧ Starts g g' b := by
  obtain ⟨f, hf, rfl⟩ := Lowering.gives_startBlock.1 hrun
  obtain ⟨l, hl, -, rfl⟩ := Function.appendBlock_gives hf
  obtain ⟨hb, -, hopen, -⟩ := h.waiting b (List.mem_cons_self ..)
  obtain ⟨hnot, hnodup⟩ := List.nodup_cons.1 h.nodup
  have hg : g.function.Grows _ := Function.grows_place b
  have hids := Function.blockIds_place hl b
  refine ⟨?_, hg, rfl, rfl, hopen⟩
  constructor
  case grows => exact h.grows.trans hg
  case last => rw [hids, List.getLast?_concat]
  case here =>
    refine Or.inr ⟨hb, ?_⟩
    rcases h.here with hc | ⟨-, hc⟩
    · exact hc ▸ hclosed
    · exact hc
  case waiting =>
    intro c hc
    obtain ⟨hmade, -, hc', hl⟩ := h.waiting c (List.mem_cons_of_mem _ hc)
    exact ⟨hmade, fun he : c = b => hnot (he ▸ hc), hc', hl.grow hg⟩
  case nodup => exact hnodup
  case settled =>
    intro c hc
    rw [hids]
    rcases h.settled hc with hc | ⟨hp, hc⟩
    · rcases List.mem_cons.1 hc with rfl | hc
      · exact Or.inr ⟨by simp, Or.inl rfl⟩
      · exact Or.inl hc
    · refine Or.inr ⟨List.mem_append_left _ hp, Or.inr ?_⟩
      rcases hc with rfl | hc
      · exact hclosed
      · exact hc
  case layout =>
    obtain ⟨bs, hbs, hc⟩ := h.layout
    refine ⟨bs ++ [b], by rw [hids, hbs, List.append_assoc], fun c hcs => ?_⟩
    rcases List.mem_append.1 hcs with hcs | hcs
    · exact hc c hcs
    · rw [List.mem_singleton.1 hcs]
      exact hb
  case exits => exact fun hnone hsome => (h.exits hnone hsome).mono hg fun _ hd => hd
  case others => exact h.others
  case returnSlot => exact h.returnSlot
  case endBlock => exact h.endBlock
  case scopes => exact h.scopes

end Spans

end LoweringState

end BlockForm
