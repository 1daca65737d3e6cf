import BlockForm.Proofs.Layout

/-!
# BlockForm.Proofs.Dominance — results are computed on every path to their uses

A path starts at the first placed block and follows exits.  `Function.Dominated f known` is a certificate: `known`
says of each block which instructions every path into it has passed, nothing for the first block, and for any
other one no more than what a block that leads to it has passed at its end; and every operand is known at its
place.  `Dominated.known_subset` reads it along a path, and `Step.dominated` keeps it while a function is built.
-/

namespace BlockForm

namespace Function

variable {f : Function} {known : BlockId → Set InstructionId}

/-! ## Paths -/

/-- The exit of block `b` may lead to block `c`. -/
def LeadsTo (f : Function) (b c : BlockId) : Prop :=
  ∃ x e t, f.block? b = some x ∧ x.exit = some e ∧ t ∈ e.targets ∧ f.labelTarget? t = some c

/-- A way through the blocks from the first placed one to `b`: the blocks passed before `b`, in order. -/
inductive Path (f : Function) : List BlockId → BlockId → Prop where
  | entry {b : BlockId} (h : f.blockIds.head? = some b) : Path f [] b
  | next {before : List BlockId} {b c : BlockId} (hp : Path f before b) (h : f.LeadsTo b c) :
      Path f (before ++ [b]) c

/-- Block `b` uses the result of instruction `i` after the instructions `earlier` of the block: as an operand of
the next instruction, or at its end as an operand of the return or as a condition. -/
inductive Uses (f : Function) (b : BlockId) : (earlier : List InstructionId) → (i : InstructionId) → Prop where
  | operand {x : Block} {earlier later : List InstructionId} {j i : InstructionId} {ins : Instruction} {v : ValueId}
      {y : Value} (hx : f.block? b = some x) (hsplit : x.instructions.toList = earlier ++ j :: later)
      (hins : f.instruction? j = some ins) (hv : v ∈ ins.operation.operands) (hy : f.value? v = some y)
      (hi : y.kind = .result i) : Uses f b earlier i
  | returned {x : Block} {j i : InstructionId} {ins : Instruction} {v : ValueId} {y : Value}
      (hx : f.block? b = some x) (he : x.exit = some (.give j)) (hins : f.instruction? j = some ins)
      (hv : v ∈ ins.operation.operands) (hy : f.value? v = some y) (hi : y.kind = .result i) :
      Uses f b x.instructions.toList i
  | condition {x : Block} {e : Exit} {i : InstructionId} {v : ValueId} {y : Value} (hx : f.block? b = some x)
      (he : x.exit = some e) (hv : v ∈ e.conditions) (hy : f.value? v = some y) (hi : y.kind = .result i) :
      Uses f b x.instructions.toList i

/-! ## The certificate -/

/-- What `known` says of the blocks holds on every path, and is enough for every use. -/
structure Dominated (f : Function) (known : BlockId → Set InstructionId) : Prop where
  entry : ∀ {b}, f.blockIds.head? = some b → known b = ∅
  edge : ∀ {b c}, f.LeadsTo b c → known c ⊆ known b ∪ f.held b
  use : ∀ {b earlier i}, f.Uses b earlier i → i ∈ known b ∨ i ∈ earlier

/-- The certificate covers what leaves the block and what the block uses. -/
structure DominatedAt (f : Function) (known : BlockId → Set InstructionId) (b : BlockId) : Prop where
  edge : ∀ {c}, f.LeadsTo b c → known c ⊆ known b ∪ f.held b
  use : ∀ {earlier i}, f.Uses b earlier i → i ∈ known b ∨ i ∈ earlier

/-- To cover a block is to cover the targets of its exit, the operands of its instructions and of its return, and its
condition. -/
theorem dominatedAt_of_block {b : BlockId} {x : Block} (hx : f.block? b = some x)
    (hedge : ∀ {e t c}, x.exit = some e → t ∈ e.targets → f.labelTarget? t = some c → known c ⊆ known b ∪ f.held b)
    (hoperand : ∀ {earlier later j i ins v y}, x.instructions.toList = earlier ++ j :: later →
      f.instruction? j = some ins → v ∈ ins.operation.operands → f.value? v = some y → y.kind = .result i →
      i ∈ known b ∨ i ∈ earlier)
    (hgive : ∀ {j i ins v y}, x.exit = some (.give j) → f.instruction? j = some ins →
      v ∈ ins.operation.operands → f.value? v = some y → y.kind = .result i →
      i ∈ known b ∨ i ∈ x.instructions.toList)
    (hcond : ∀ {e i v y}, x.exit = some e → v ∈ e.conditions → f.value? v = some y → y.kind = .result i →
      i ∈ known b ∨ i ∈ x.instructions.toList) : f.DominatedAt known b := by
  refine ⟨?_, ?_⟩
  · rintro c ⟨y, e, t, hy, he, ht, hl⟩
    rw [hx] at hy
    cases hy
    exact hedge he ht hl
  · intro earlier i hu
    cases hu with
    | operand hy hsplit hins hv hval hi =>
      rw [hx] at hy
      cases hy
      exact hoperand hsplit hins hv hval hi
    | returned hy he hins hv hval hi =>
      rw [hx] at hy
      cases hy
      exact hgive he hins hv hval hi
    | condition hy he hv hval hi =>
      rw [hx] at hy
      cases hy
      exact hcond he hv hval hi

/-- What is known of a block has been passed on every path into it. -/
theorem Dominated.known_subset (h : f.Dominated known) {before : List BlockId} {b : BlockId}
    (hp : f.Path before b) : ∀ i ∈ known b, ∃ c ∈ before, i ∈ f.held c := by
  induction hp with
  | entry hb =>
    intro i hi
    rw [h.entry hb] at hi
    exact absurd hi (Set.notMem_empty i)
  | @next before b c _ hbc ih =>
    intro i hi
    rcases h.edge hbc hi with hi | hi
    · obtain ⟨d, hd, hid⟩ := ih i hi
      exact ⟨d, List.mem_append_left _ hd, hid⟩
    · exact ⟨b, by simp, hi⟩

/-- The result that a block uses has been computed, in an earlier block of the path or earlier in the block. -/
theorem Dominated.computed (h : f.Dominated known) {before : List BlockId} {b : BlockId} (hp : f.Path before b)
    {earlier : List InstructionId} {i : InstructionId} (hu : f.Uses b earlier i) :
    (∃ c ∈ before, i ∈ f.held c) ∨ i ∈ earlier := by
  rcases h.use hu with hi | hi
  · exact Or.inl (h.known_subset hp i hi)
  · exact Or.inr hi

end Function

/-! ## Keeping the certificate -/

namespace LoweringState.Laid

variable {s : LoweringState} {g : Function} {b : BlockId} {x : Block}

/-- What stands in a block has been made. -/
theorem row_lt (hl : s.Laid) (hx : s.function.block? b = some x) {j : InstructionId} (hj : j ∈ x.row) :
    j.index < s.function.instructions.size := by
  by_cases hb : b ∈ s.function.blockIds
  · refine Function.mem_allInstructions.1 (hl.order ▸ List.mem_flatMap.2 ⟨b, hb, ?_⟩)
    simpa [Function.row, hx] using hj
  · obtain ⟨hi, he⟩ := hl.blank hx hb
    simp [Block.row, hi, he] at hj

/-- An operand in a block is the same when the function has grown. -/
theorem operand_of_grows (hl : s.Laid) (hc : s.function.Coherent) (hg : s.function.Grows g)
    (hx : s.function.block? b = some x) {j : InstructionId} (hj : j ∈ x.row) {ins : Instruction} {v : ValueId}
    {y : Value} (hins : g.instruction? j = some ins) (hv : v ∈ ins.operation.operands) (hy : g.value? v = some y) :
    s.function.instruction? j = some ins ∧ s.function.value? v = some y := by
  have hlt := hl.row_lt hx hj
  have hj' : s.function.instruction? j = some s.function.instructions[j.index] := Array.getElem?_eq_getElem hlt
  have heq := (hg.instruction? hj').symm.trans hins
  rw [Option.some.inj heq] at hj'
  obtain ⟨z, hz, -⟩ := hc.reads hj' v hv
  exact ⟨hj', by rw [hz, ← hg.value? hz, hy]⟩

/-- A block that has not changed uses what it used. -/
theorem uses_of_grows (hl : s.Laid) (hc : s.function.Coherent) (hg : s.function.Grows g)
    (hx : s.function.block? b = some x) (hgx : g.block? b = some x) {earlier : List InstructionId}
    {i : InstructionId} (hu : g.Uses b earlier i) : s.function.Uses b earlier i := by
  cases hu with
  | operand hy hsplit hins hv hval hi =>
    rw [hgx] at hy
    cases hy
    obtain ⟨hins', hval'⟩ := hl.operand_of_grows hc hg hx (by simp [Block.row, hsplit]) hins hv hval
    exact .operand hx hsplit hins' hv hval' hi
  | returned hy he hins hv hval hi =>
    rw [hgx] at hy
    cases hy
    obtain ⟨hins', hval'⟩ := hl.operand_of_grows hc hg hx (by simp [Block.row, he]) hins hv hval
    exact .returned hx he hins' hv hval' hi
  | condition hy he hv hval hi =>
    rw [hgx] at hy
    cases hy
    have hb : b ∈ s.function.blockIds := by
      by_contra hb
      simp [(hl.blank hx hb).2] at he
    obtain ⟨before, after, hsplit⟩ := List.append_of_mem hb
    obtain ⟨z, hz, -⟩ := hl.conditions hsplit hx he hv
    exact .condition hx he hv (by rw [hz, ← hg.value? hz, hval]) hi

end LoweringState.Laid

namespace Function

variable {f g : Function} {known known' : BlockId → Set InstructionId}

theorem LeadsTo.lt {b c : BlockId} (h : f.LeadsTo b c) (hc : f.Coherent) : c.index < f.blocks.size := by
  obtain ⟨x, e, t, hx, he, ht, hl⟩ := h
  obtain ⟨y, hy, -⟩ := hc.label_iff.1 hl
  exact block?_lt hy

/-- A block that has not changed leads where it led. -/
theorem LeadsTo.of_grows {b c : BlockId} {x : Block} (h : g.LeadsTo b c) (hc : f.Coherent) (hg : f.Grows g)
    (hx : f.block? b = some x) (hgx : g.block? b = some x) : f.LeadsTo b c := by
  obtain ⟨y, e, t, hy, he, ht, hl⟩ := h
  rw [hgx] at hy
  cases hy
  obtain ⟨d, hd⟩ := hc.targets hx he t ht
  have := (hg.labelTarget? hd).symm.trans hl
  exact ⟨x, e, t, hx, he, ht, this ▸ hd⟩

/-- The certificate is kept if it covers the edges and the uses of the blocks that have changed. -/
theorem Dominated.grow {s : LoweringState} (h : s.function.Dominated known) (hl : s.Laid) (hc : s.function.Coherent)
    (hg : s.function.Grows g) (hhead : g.blockIds.head? = s.function.blockIds.head?)
    (hknown : ∀ {b : BlockId}, b.index < s.function.blocks.size → known' b = known b)
    (hblock : ∀ {b x}, g.block? b = some x → s.function.block? b = some x ∨ g.DominatedAt known' b) :
    g.Dominated known' := by
  refine ⟨fun {b} hb => ?_, fun {b c} hbc => ?_, fun {b earlier i} hu => ?_⟩
  · rw [hhead] at hb
    rw [hknown (hl.inRange (List.mem_of_mem_head? hb)), h.entry hb]
  · obtain ⟨x, -, -, hx, -⟩ := id hbc
    rcases hblock hx with hfx | hat
    · have hbc' := hbc.of_grows hc hg hfx hx
      rw [hknown (hbc'.lt hc), hknown (block?_lt hfx)]
      exact (h.edge hbc').trans (Set.union_subset_union_right _ (hg.held_subset b))
    · exact hat.edge hbc
  · obtain ⟨x, hx⟩ : ∃ x, g.block? b = some x := by cases hu <;> exact ⟨_, ‹_›⟩
    rcases hblock hx with hfx | hat
    · rw [hknown (block?_lt hfx)]
      exact h.use (hl.uses_of_grows hc hg hfx hx hu)
    · exact hat.use hu

/-- An operand of an instruction of an old block was known, and is. -/
theorem Dominated.operand_known {s : LoweringState} (h : s.function.Dominated known) (hl : s.Laid)
    (hc : s.function.Coherent) (hg : s.function.Grows g) {b : BlockId} {x : Block}
    (hx : s.function.block? b = some x) {earlier later : List InstructionId} {j i : InstructionId}
    {ins : Instruction} {v : ValueId} {y : Value} (hsplit : x.instructions.toList = earlier ++ j :: later)
    (hins : g.instruction? j = some ins) (hv : v ∈ ins.operation.operands) (hy : g.value? v = some y)
    (hi : y.kind = .result i) : i ∈ known b ∨ i ∈ earlier := by
  obtain ⟨hins', hy'⟩ := hl.operand_of_grows hc hg hx (by simp [Block.row, hsplit]) hins hv hy
  exact h.use (.operand hx hsplit hins' hv hy' hi)

end Function

namespace Site

variable {g g' : Site} {f : Function}

/-- The value of a usable operand has been passed, before the current block or in it. -/
theorem Usable.known_or_mem {v : ValueId} {y : Value} {i : InstructionId} {x : Block} (h : g.Usable v)
    (hx : g.state.function.block? g.state.current = some x) (hg : g.state.function.Grows f)
    (hy : f.value? v = some y) (hi : y.kind = .result i) :
    i ∈ g.known g.state.current ∨ i ∈ x.instructions.toList := by
  obtain ⟨z, hz, hr⟩ := h
  cases (hg.value? hz).symm.trans hy
  rcases hr i hi with hi | ⟨x', hx', hi⟩
  · exact Or.inl hi
  · cases hx.symm.trans hx'
    exact Or.inr (by simpa using hi)

section Changes

variable {s : LoweringState} {k : BlockId → Set InstructionId} {x : Block}

/-- A new instruction reads what has been passed. -/
theorem dominatedAt_withEmitted (hd : s.function.Dominated k) (hl : s.Laid) (hc : s.function.Coherent)
    (hx : s.function.block? s.current = some x) (hopen : x.exit = none) {op : Operation} (ty : Option LoweredType)
    (huse : ∀ v ∈ op.operands, Usable ⟨s, k⟩ v) :
    (s.function.withEmitted s.current x op ty).DominatedAt k s.current := by
  have hg := Function.grows_withEmitted hx hopen op ty
  have hself := Function.block?_withEmitted hx op ty s.current
  rw [if_pos rfl] at hself
  refine Function.dominatedAt_of_block hself (by simp [hopen]) ?_ (by simp [hopen]) (by simp [hopen])
  intro earlier later j i ins v y hsplit hins hv hy hi
  rw [Array.toList_push] at hsplit
  rcases List.eq_nil_or_concat later with rfl | ⟨later, last, rfl⟩
  · -- the instruction just added
    obtain ⟨rfl, hj⟩ := List.append_inj' hsplit rfl
    cases hj
    have hins' : (s.function.withInstruction op ty).instruction? s.function.nextInstruction = some ins := hins
    rw [Function.instruction?_withInstruction, if_pos rfl] at hins'
    cases hins'
    exact (huse v hv).known_or_mem hx hg hy hi
  · have hsplit' : x.instructions.toList = earlier ++ j :: later := by
      have : x.instructions.toList ++ [s.function.nextInstruction] = (earlier ++ j :: later) ++ [last] := by
        simpa using hsplit
      exact (List.append_inj' this rfl).1
    exact hd.operand_known hl hc hg hx hsplit' hins hv hy hi

/-- An exit leads to blocks that rely on no more than what has been passed. -/
theorem dominatedAt_withExit (hd : s.function.Dominated k) (hl : s.Laid) (hc : s.function.Coherent)
    (hx : s.function.block? s.current = some x) (hopen : x.exit = none) {e : Exit} (hgive : ∀ id, e ≠ .give id)
    (hto : ∀ t ∈ e.targets, ∃ b y, s.function.block? b = some y ∧ y.label = t ∧ CanReach ⟨s, k⟩ b)
    (hcond : ∀ c ∈ e.conditions, Usable ⟨s, k⟩ c) : (s.function.withExit s.current x e).DominatedAt k s.current := by
  have hg := Function.grows_withExit hx hopen e
  have hself := Function.block?_withExit hx e s.current
  rw [if_pos rfl] at hself
  refine Function.dominatedAt_of_block hself ?_ ?_ ?_ ?_
  · rintro _ t c ⟨⟩ ht hlab
    obtain ⟨d, w, hw, rfl, -, hsub⟩ := hto t ht
    obtain rfl : d = c := Option.some.inj ((hg.labelTarget? (hc.label_iff.2 ⟨w, hw, rfl⟩)).symm.trans hlab)
    exact hsub.trans (Set.union_subset_union_right _ (hg.held_subset _))
  · exact fun hsplit hins hv hy hi => hd.operand_known hl hc hg hx hsplit hins hv hy hi
  · rintro j i ins v y ⟨⟩
    exact absurd rfl (hgive _)
  · rintro _ i v y ⟨⟩ hv hy hi
    have hpassed := (hcond v hv).known_or_mem hx hg hy hi
    exact hpassed

/-- A return reads what has been passed. -/
theorem dominatedAt_withReturn (hd : s.function.Dominated k) (hl : s.Laid) (hc : s.function.Coherent)
    (hx : s.function.block? s.current = some x) (hopen : x.exit = none) {value : Option ValueId}
    (huse : ∀ v ∈ value, Usable ⟨s, k⟩ v) : (s.function.withReturn s.current x value).DominatedAt k s.current := by
  have hg := Function.grows_withReturn hx hopen value
  have hself := Function.block?_withReturn hx value s.current
  rw [if_pos rfl] at hself
  refine Function.dominatedAt_of_block hself ?_ ?_ ?_ ?_
  · rintro _ t c ⟨⟩ ht
    cases ht
  · exact fun hsplit hins hv hy hi => hd.operand_known hl hc hg hx hsplit hins hv hy hi
  · rintro _ i ins v y ⟨⟩ hins hv hy hi
    have hins' : (s.function.withInstruction (.give value) none).instruction? s.function.nextInstruction =
        some ins := hins
    rw [Function.instruction?_withInstruction, if_pos rfl] at hins'
    cases hins'
    have hpassed := (huse v (by simpa [Operation.operands] using hv)).known_or_mem hx hg hy hi
    exact hpassed
  · rintro _ i v y ⟨⟩ hv
    cases hv

end Changes

/-- **Every step keeps the certificate.** -/
theorem Step.dominated (h : Step g g') (hc : g.state.function.Coherent) (hl : g.state.Laid)
    (hd : g.state.function.Dominated g.known) : g'.state.function.Dominated g'.known := by
  have hg := h.function_grows
  have hknown : ∀ {b : BlockId}, b.index < g.state.function.blocks.size → g'.known b = g.known b :=
    fun hb => h.known_eq hb
  cases h with
  | lowerType | intern | constant | literal | scopes =>
    exact hd.grow hl hc hg rfl hknown Or.inl
  | @emit s k op ty x hop hx hopen hty huse hknow =>
    refine hd.grow hl hc hg (by cases ty <;> rfl) hknown fun {b y} hy => ?_
    rw [Function.block?_withEmitted hx] at hy
    split at hy
    · next hb => exact Or.inr (hb ▸ dominatedAt_withEmitted hd hl hc hx hopen ty huse)
    · exact Or.inl hy
  | @newBlock s k =>
    refine hd.grow hl hc hg rfl hknown fun {b y} hy => ?_
    have hy' := hy
    rw [Function.block?_withLabel_eq] at hy
    split at hy
    · cases hy
      exact Or.inr (Function.dominatedAt_of_block hy' (by simp) (by simp) (by simp) (by simp))
    · exact Or.inl hy
  | @leave s k e x hx hopen hgive hto hcond =>
    refine hd.grow hl hc hg rfl hknown fun {b y} hy => ?_
    rw [Function.block?_withExit hx] at hy
    split at hy
    · next hb => exact Or.inr (hb ▸ dominatedAt_withExit hd hl hc hx hopen hgive hto fun c hv => (hcond c hv).1)
    · exact Or.inl hy
  | @start s k b l hlay hb hclosed =>
    refine hd.grow hl hc hg ?_ hknown Or.inl
    obtain ⟨bs, hbs⟩ := hl.last
    show (s.function.place b).blockIds.head? = s.function.blockIds.head?
    have hbs' : s.function.blockIds = bs ++ [s.current] := hbs
    rw [Function.blockIds_place hlay, hbs']
    cases bs <;> rfl
  | @give s k value x hend hx hopen hty huse =>
    refine hd.grow hl hc hg rfl hknown fun {b y} hy => ?_
    rw [Function.block?_withReturn hx] at hy
    split at hy
    · next hb => exact Or.inr (hb ▸ dominatedAt_withReturn hd hl hc hx hopen huse)
    · exact Or.inl hy

end Site

end BlockForm
