import BlockForm.Proofs.Trace

/-!
# BlockForm.Proofs.Layout — blocks are filled in the order in which they are placed

`LoweringState.Laid`: the current block is the last one placed, every other placed block has its exit, a block
not placed yet is untouched, and the instructions of the placed blocks, read in layout order, are all the
instructions in the order in which they were made.  Every step of lowering keeps this.
-/

namespace BlockForm

/-- The instructions of a block, the return that ends it included. -/
def Block.row (x : Block) : List InstructionId :=
  x.instructions.toList ++
    match x.exit with
    | some (.give id) => [id]
    | _ => []

theorem Block.row_of_open {x : Block} (h : x.exit = none) : x.row = x.instructions.toList := by
  simp [row, h]

namespace Function

/-- The instructions of the block with a handle. -/
def row (f : Function) (b : BlockId) : List InstructionId := (f.block? b).elim [] Block.row

/-- The instructions of several blocks in order. -/
def rows (f : Function) (bs : List BlockId) : List InstructionId := bs.flatMap f.row

@[simp] theorem rows_append (f : Function) (bs cs : List BlockId) : f.rows (bs ++ cs) = f.rows bs ++ f.rows cs :=
  List.flatMap_append

@[simp] theorem rows_singleton (f : Function) (b : BlockId) : f.rows [b] = f.row b := by simp [rows]

theorem rows_congr {f g : Function} {bs : List BlockId} (h : ∀ b ∈ bs, g.block? b = f.block? b) :
    g.rows bs = f.rows bs := by
  unfold rows
  exact List.flatMap_congr fun b hb => by simp only [row, h b hb]

/-- The handles of all instructions, in the order in which they were made. -/
def allInstructions (f : Function) : List InstructionId := (List.range f.instructions.size).map Handle.mk

theorem mem_allInstructions {f : Function} {i : InstructionId} :
    i ∈ f.allInstructions ↔ i.index < f.instructions.size := by
  simp only [allInstructions, List.mem_map, List.mem_range]
  constructor
  · rintro ⟨n, hn, rfl⟩
    exact hn
  · intro h
    exact ⟨i.index, h, rfl⟩

end Function

/-- Blocks are filled one after another, in layout order. -/
structure LoweringState.Laid (s : LoweringState) : Prop where
  layout : ∃ l, s.function.layout = some l
  nodup : s.function.blockIds.Nodup
  inRange : ∀ {b}, b ∈ s.function.blockIds → b.index < s.function.blocks.size
  /-- The current block is the last one. -/
  last : ∃ bs, s.function.blockIds = bs ++ [s.current]
  /-- The other placed blocks have their exits. -/
  closed : ∀ {b}, b ∈ s.function.blockIds → b ≠ s.current → s.function.IsClosed b
  /-- Blocks not placed yet are untouched. -/
  blank : ∀ {b x}, s.function.block? b = some x → b ∉ s.function.blockIds → x.instructions = #[] ∧ x.exit = none
  /-- Layout order is the order in which instructions were made. -/
  order : s.function.rows s.function.blockIds = s.function.allInstructions
  /-- A condition is a typed value that has been computed by the end of its block. -/
  conditions : ∀ {before b after x e c}, s.function.blockIds = before ++ b :: after →
    s.function.block? b = some x → x.exit = some e → c ∈ e.conditions →
    ∃ y, s.function.value? c = some y ∧ y.ty.isSome ∧
      ∀ i, y.kind = .result i → i ∈ s.function.rows (before ++ [b])

/-- The last element of a list lies in every final stretch of it. -/
theorem last_mem_of_split {α : Type} {bs before after : List α} {c b : α}
    (h : bs ++ [c] = before ++ b :: after) : c ∈ b :: after := by
  have hl := congrArg List.getLast? h
  rw [List.getLast?_concat, List.getLast?_append_cons] at hl
  exact List.mem_of_getLast? hl.symm

/-- What follows the last element of a list without repetitions is nothing. -/
theorem after_last_eq_nil {α : Type} {bs before after : List α} {c : α} (hn : (bs ++ [c]).Nodup)
    (h : bs ++ [c] = before ++ c :: after) : after = [] := by
  rcases List.eq_nil_or_concat after with rfl | ⟨as, z, rfl⟩
  · rfl
  · exfalso
    have h' : bs ++ [c] = (before ++ c :: as) ++ [z] := by simpa using h
    have hbs : bs = before ++ c :: as := (List.append_inj' h' rfl).1
    rw [List.nodup_append] at hn
    exact hn.2.2 c (by simp [hbs]) c (by simp) rfl

namespace LoweringState.Laid

variable {s : LoweringState} {f : Function}

theorem current_mem (h : s.Laid) : s.current ∈ s.function.blockIds := by
  obtain ⟨bs, hbs⟩ := h.last
  simp [hbs]

/-- A change that leaves the layout and all blocks but new ones alone. -/
theorem congr (h : s.Laid) (hg : s.function.Grows f) (hl : f.layout = s.function.layout)
    (hi : f.instructions = s.function.instructions) (hs : s.function.blocks.size ≤ f.blocks.size)
    (hold : ∀ {b}, b.index < s.function.blocks.size → f.block? b = s.function.block? b)
    (hnew : ∀ {b x}, ¬ b.index < s.function.blocks.size → f.block? b = some x →
      x.instructions = #[] ∧ x.exit = none) :
    LoweringState.Laid { s with function := f } := by
  have hids : f.blockIds = s.function.blockIds := by simp only [Function.blockIds, hl]
  have hrows : ∀ {bs : List BlockId}, (∀ b ∈ bs, b ∈ s.function.blockIds) → f.rows bs = s.function.rows bs :=
    fun hbs => Function.rows_congr fun b hb => hold (h.inRange (hbs b hb))
  obtain ⟨l, hl'⟩ := h.layout
  refine ⟨⟨l, hl.trans hl'⟩, ?_, ?_, ?_, ?_, ?_, ?_, ?_⟩ <;> simp only [hids]
  · exact h.nodup
  · exact fun hb => Nat.lt_of_lt_of_le (h.inRange hb) hs
  · exact h.last
  · intro b hb hne
    obtain ⟨x, hx, he⟩ := h.closed hb hne
    exact ⟨x, by rw [hold (h.inRange hb), hx], he⟩
  · intro b x hx hb
    by_cases hlt : b.index < s.function.blocks.size
    · exact h.blank (hold hlt ▸ hx) hb
    · exact hnew hlt hx
  · rw [hrows fun b hb => hb, h.order]
    simp only [Function.allInstructions, hi]
  · intro before b after x e c hsplit hx he hc
    have hmem : ∀ a ∈ before ++ [b], a ∈ s.function.blockIds := by
      intro a ha
      rw [hsplit]
      rcases List.mem_append.1 ha with ha | ha
      · exact List.mem_append_left _ ha
      · exact List.mem_append_right _ (by simp_all)
    rw [hold (h.inRange (hmem b (by simp)))] at hx
    obtain ⟨y, hy, hty, hr⟩ := h.conditions hsplit hx he hc
    exact ⟨y, hg.value? hy, hty, fun i hi => by rw [hrows hmem]; exact hr i hi⟩

/-- A change of the current block, with the instructions it takes. -/
theorem fill (h : s.Laid) {x : Block} (y : Block) (new : List InstructionId)
    (hx : s.function.block? s.current = some x) (hg : s.function.Grows f)
    (hl : f.layout = s.function.layout) (hsize : f.blocks.size = s.function.blocks.size)
    (hblock : ∀ b, f.block? b = if b = s.current then some y else s.function.block? b)
    (hrow : y.row = x.row ++ new) (hall : f.allInstructions = s.function.allInstructions ++ new)
    (hcond : ∀ e c, y.exit = some e → c ∈ e.conditions → ∃ z, s.function.value? c = some z ∧ z.ty.isSome ∧
      ∀ i, z.kind = .result i → i.index < s.function.instructions.size) :
    LoweringState.Laid { s with function := f } := by
  have hids : f.blockIds = s.function.blockIds := by simp only [Function.blockIds, hl]
  have hother : ∀ {b}, b ≠ s.current → f.block? b = s.function.block? b := fun hb => by rw [hblock, if_neg hb]
  obtain ⟨l, hl'⟩ := h.layout
  obtain ⟨bs, hbs⟩ := h.last
  have hcur : s.current ∉ bs := by
    have := h.nodup
    rw [hbs, List.nodup_append] at this
    exact fun hm => this.2.2 _ hm _ (by simp) rfl
  have hrows : f.rows s.function.blockIds = s.function.rows s.function.blockIds ++ new := by
    rw [hbs, Function.rows_append, Function.rows_append, Function.rows_singleton, Function.rows_singleton,
      Function.rows_congr fun b hb => hother fun hbc => hcur (hbc ▸ hb)]
    simp only [Function.row, hblock, if_true, hx, Option.elim_some, hrow, List.append_assoc]
  refine ⟨⟨l, hl.trans hl'⟩, ?_, ?_, ?_, ?_, ?_, ?_, ?_⟩ <;> simp only [hids]
  · exact h.nodup
  · exact fun hb => hsize ▸ h.inRange hb
  · exact h.last
  · intro b hb hne
    obtain ⟨z, hz, he⟩ := h.closed hb hne
    exact ⟨z, by rw [hother hne, hz], he⟩
  · intro b z hz hb
    have hne : b ≠ s.current := by rintro rfl; exact hb h.current_mem
    exact h.blank (hother hne ▸ hz) hb
  · rw [hrows, h.order, hall]
  · intro before b after z e c hsplit hz he hc
    by_cases hbc : b = s.current
    · subst hbc
      rw [hblock, if_pos rfl] at hz
      cases hz
      obtain ⟨w, hw, hty, hr⟩ := hcond e c he hc
      have hafter := after_last_eq_nil (hbs ▸ h.nodup) (hbs.symm.trans hsplit)
      subst hafter
      refine ⟨w, hg.value? hw, hty, fun i hi => ?_⟩
      rw [← hsplit, hrows, h.order]
      exact List.mem_append_left _ (Function.mem_allInstructions.2 (hr i hi))
    · rw [hother hbc] at hz
      obtain ⟨w, hw, hty, hr⟩ := h.conditions hsplit hz he hc
      -- the current block stands after `b`, so not among the blocks before it
      have hlast : s.current ∈ b :: after := last_mem_of_split (hbs.symm.trans hsplit)
      have hbefore : ∀ a ∈ before ++ [b], f.block? a = s.function.block? a := by
        intro a ha
        refine hother fun hac => ?_
        subst hac
        rcases List.mem_append.1 ha with ha | ha
        · have := h.nodup
          rw [hsplit, List.nodup_append] at this
          exact this.2.2 _ ha _ hlast rfl
        · exact hbc (List.mem_singleton.1 ha).symm
      exact ⟨w, hg.value? hw, hty, fun i hi => by rw [Function.rows_congr hbefore]; exact hr i hi⟩

/-- Placing an untouched block after the current one, which has its exit. -/
theorem place (h : s.Laid) {b : BlockId} (hb : s.function.Pending b) (hclosed : s.function.IsClosed s.current) :
    LoweringState.Laid { s with function := s.function.place b, current := b } := by
  obtain ⟨l, hl⟩ := h.layout
  have hids : (s.function.place b).blockIds = s.function.blockIds ++ [b] := Function.blockIds_place hl b
  have hrow : s.function.row b = [] := by
    obtain ⟨x, hx⟩ := Function.exists_block? hb.1
    obtain ⟨hi, he⟩ := h.blank hx hb.2
    simp [Function.row, hx, Block.row, hi, he]
  have hrows : ∀ bs, (s.function.place b).rows bs = s.function.rows bs := fun bs =>
    Function.rows_congr fun _ _ => rfl
  refine ⟨⟨l.push b, by simp [Function.place, hl]⟩, ?_, ?_, ⟨s.function.blockIds, hids⟩, ?_, ?_, ?_, ?_⟩ <;>
    simp only [hids]
  · rw [List.nodup_append]
    refine ⟨h.nodup, by simp, ?_⟩
    rintro a ha c hc rfl
    exact hb.2 (List.mem_singleton.1 hc ▸ ha)
  · intro c hc
    rcases List.mem_append.1 hc with hc | hc
    · exact h.inRange hc
    · exact List.mem_singleton.1 hc ▸ hb.1
  · intro c hc hne
    rcases List.mem_append.1 hc with hc | hc
    · by_cases hcs : c = s.current
      · exact hcs ▸ hclosed
      · exact h.closed hc hcs
    · exact absurd (List.mem_singleton.1 hc) hne
  · intro c x hx hc
    exact h.blank hx fun hm => hc (List.mem_append_left _ hm)
  · rw [hrows, Function.rows_append, Function.rows_singleton, hrow, List.append_nil, h.order]
    rfl
  · intro before c after x e d hsplit hx he hd
    rcases List.eq_nil_or_concat after with rfl | ⟨as, z, rfl⟩
    · -- the block just placed has no exit
      have hcb : c = b := by
        have := (List.append_inj' hsplit rfl).2
        simpa using this.symm
      subst hcb
      have := (h.blank hx hb.2).2
      simp [he] at this
    · have hsplit' : s.function.blockIds = before ++ c :: as := by
        have : s.function.blockIds ++ [b] = (before ++ c :: as) ++ [z] := by simpa using hsplit
        exact (List.append_inj' this rfl).1
      obtain ⟨y, hy, hty, hr⟩ := h.conditions hsplit' hx he hd
      exact ⟨y, hy, hty, fun i hi => by rw [hrows]; exact hr i hi⟩

end LoweringState.Laid

namespace Function

theorem allInstructions_of_push {f g : Function} {ins : Instruction}
    (h : g.instructions = f.instructions.push ins) :
    g.allInstructions = f.allInstructions ++ [f.nextInstruction] := by
  simp [allInstructions, h, List.range_succ, nextInstruction]

end Function

namespace Site

variable {g g' : Site}

theorem Step.laid (h : Step g g') (hc : g.state.function.Coherent) (hl : g.state.Laid) : g'.state.Laid := by
  cases h with
  | lowerType | intern | scopes =>
    exact ⟨hl.layout, hl.nodup, hl.inRange, hl.last, hl.closed, hl.blank, hl.order, hl.conditions⟩
  | constant =>
    exact hl.congr (Function.grows_withValue _) rfl rfl (Nat.le_refl _) (fun _ => rfl)
      fun hb hx => absurd (Function.block?_lt hx) hb
  | literal =>
    exact hl.congr (Function.grows_withLiteral _ _) rfl rfl (Nat.le_refl _) (fun _ => rfl)
      fun hb hx => absurd (Function.block?_lt hx) hb
  | @newBlock s k =>
    refine hl.congr Function.grows_withLabel rfl rfl (by simp [Function.withLabel]) ?_ ?_
    · intro b hb
      have : b ≠ s.function.nextBlock := by rintro rfl; exact Nat.lt_irrefl _ hb
      rw [Function.block?_withLabel_eq, if_neg this]
    · intro b x hb hx
      rw [Function.block?_withLabel_eq] at hx
      split at hx
      · cases hx
        exact ⟨rfl, rfl⟩
      · exact absurd (Function.block?_lt hx) hb
  | @emit s k op ty x hop hx hopen hty huse =>
    refine hl.fill _ [s.function.nextInstruction] hx (Function.grows_withEmitted hx hopen op ty) ?_ ?_
      (Function.block?_withEmitted hx op ty) ?_ ?_ ?_
    · cases ty <;> rfl
    · cases ty <;> simp [Function.withEmitted, Function.put, Function.withInstruction]
    · rw [Block.row_of_open hopen, Block.row_of_open (by exact hopen), Array.toList_push]
    · exact Function.allInstructions_of_push (Function.instructions_withInstruction op ty)
    · intro e c he
      simp [hopen] at he
  | @leave s k e x hx hopen hgive hto hcond =>
    refine hl.fill _ [] hx (Function.grows_withExit hx hopen e) rfl (by simp [Function.withExit, Function.put])
      (Function.block?_withExit hx e) ?_ (by rw [List.append_nil]; rfl) ?_
    · rw [Block.row_of_open hopen, List.append_nil]
      cases e with
      | give id => exact absurd rfl (hgive id)
      | branch | condBranch | unreachable => simp [Block.row]
    · rintro _ c ⟨⟩ hc'
      obtain ⟨⟨z, hz, -⟩, hty⟩ := hcond c hc'
      obtain ⟨z', hz', ht⟩ := Option.bind_eq_some_iff.1 hty
      rw [hz] at hz'
      cases hz'
      refine ⟨z, hz, by simp [ht], fun i hi => ?_⟩
      obtain ⟨ins, hins, -⟩ := hc.result hz hi
      exact Function.instruction?_lt hins
  | start _ hb hclosed => exact hl.place hb hclosed
  | @give s k value x hend hx hopen hty huse =>
    refine hl.fill _ [s.function.nextInstruction] hx (Function.grows_withReturn hx hopen value) rfl
      (by simp [Function.withReturn, Function.withExit, Function.put, Function.withInstruction])
      (Function.block?_withReturn hx value) ?_ ?_ ?_
    · rw [Block.row_of_open hopen]
      rfl
    · exact Function.allInstructions_of_push rfl
    · rintro _ c ⟨⟩ hc'
      cases hc'

end Site

end BlockForm
