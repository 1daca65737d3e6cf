import Mathlib.Data.List.Basic
import Mathlib.Logic.Relation
import BlockForm.Proofs.Program

/-!
# BlockForm.Proofs.ControlFlow — the shape of a finished definition

Blocks are made in one order and placed in another, but an exit only ever leads to blocks that are still to be placed
(`Function.Forward`).  In a finished definition every block is placed, so control goes forward through the layout, in no
cycle, until it reaches the end block or a block that is never left; the end block is the last one and the only one
that returns (`Function.ControlFlow`).
-/

namespace BlockForm

open Action

/-- A list without repetitions is split by an element in one way. -/
theorem split_unique {α : Type} {xs before after before' after' : List α} {a : α} (hn : xs.Nodup)
    (h : xs = before ++ a :: after) (h' : xs = before' ++ a :: after') : before = before' ∧ after = after' := by
  rw [h, List.nodup_append, List.nodup_cons] at hn
  have hbefore : a ∉ before := fun hm => hn.2.2 a hm a (List.mem_cons_self ..) rfl
  obtain ⟨h₁, -, h₂⟩ := (List.append_cons_inj_of_notMem hbefore hn.2.1.1).1 (h.symm.trans h')
  exact ⟨h₁, h₂⟩

namespace Function

variable {f g : Function}

/-! ## Exits lead on -/

/-- The targets of the exit of a placed block are placed neither before it nor at it. -/
def Forward (f : Function) : Prop :=
  ∀ {before b after x e t}, f.blockIds = before ++ b :: after → f.block? b = some x → x.exit = some e →
    t ∈ e.targets → ∃ c, f.labelTarget? t = some c ∧ c ∉ before ++ [b]

/-- The entry block makes the return slot before anything else, and the last block returns what it reads there. -/
structure ReturnsSlot (f : Function) (entry final : BlockId) (slot : ValueId) : Prop where
  kept : f.returnSlot = some slot
  made : ∃ x i rest, f.block? entry = some x ∧ x.instructions.toList = i :: rest ∧
    f.instruction? i = some ⟨.alloca f.returnType 1, slot⟩
  given : ∃ x i v j, f.block? final = some x ∧ x.instructions = #[i] ∧ f.instruction? i = some ⟨.read slot, v⟩ ∧
    x.exit = some (.give j) ∧ f.instruction? j = some ⟨.give (some v), nilValue⟩

/-- There is no return slot, and the last block does nothing but return. -/
structure ReturnsNothing (f : Function) (final : BlockId) : Prop where
  kept : f.returnSlot = none
  given : ∃ x j, f.block? final = some x ∧ x.instructions = #[] ∧ x.exit = some (.give j) ∧
    f.instruction? j = some ⟨.give none, nilValue⟩

/-- The shape of a definition that starts in block `entry` and returns from block `final`. -/
structure ControlFlow (f : Function) (entry final : BlockId) : Prop where
  first : f.blockIds.head? = some entry
  last : f.blockIds.getLast? = some final
  /-- Every block is placed, once. -/
  nodup : f.blockIds.Nodup
  placed : ∀ {b}, b ∈ f.blockIds ↔ ∃ x, f.block? b = some x
  /-- Every target of an exit is a block placed later. -/
  forward : ∀ {before b after x e t}, f.blockIds = before ++ b :: after → f.block? b = some x → x.exit = some e →
    t ∈ e.targets → ∃ c ∈ after, f.labelTarget? t = some c
  acyclic : ∀ b, ¬ Relation.TransGen f.LeadsTo b b
  /-- A path runs through the layout in order, and it goes on unless it is at the end block or at a block that is
  never left. -/
  path : ∀ {before b}, f.Path before b → (before ++ [b]).Sublist f.blockIds ∧
    ((∃ c, f.LeadsTo b c) ∨ b = final ∨ ∃ x, f.block? b = some x ∧ x.exit = some .unreachable)
  /-- The end block is the one that returns. -/
  returns : ∀ {b x}, f.block? b = some x → ((∃ j, x.exit = some (.give j)) ↔ b = final)
  endLabel : ∃ x, f.block? final = some x ∧ f.endLabel = some x.label
  value : f.returnType.isNil = false → ∃ slot, f.ReturnsSlot entry final slot
  nothing : f.returnType.isNil = true → f.ReturnsNothing final

/-! ## Forward exits make no cycles -/

/-- Every way out of a block leads to a block placed later. -/
def LeadsOn (f : Function) : Prop :=
  ∀ {before b after c}, f.blockIds = before ++ b :: after → f.LeadsTo b c → c ∈ after

/-- So does any number of ways in a row. -/
theorem LeadsOn.transGen (h : f.LeadsOn) {before after : List BlockId} {b c : BlockId}
    (hsplit : f.blockIds = before ++ b :: after) (hbc : Relation.TransGen f.LeadsTo b c) : c ∈ after := by
  induction hbc with
  | single hbc => exact h hsplit hbc
  | @tail c d _ hcd ih =>
    obtain ⟨p, q, rfl⟩ := List.append_of_mem ih
    have hsplit' : f.blockIds = (before ++ b :: p) ++ c :: q := by rw [hsplit, List.append_assoc, List.cons_append]
    have hd : d ∈ q := h hsplit' hcd
    simp [hd]

theorem LeadsOn.acyclic (h : f.LeadsOn) (hn : f.blockIds.Nodup)
    (hp : ∀ {b x}, f.block? b = some x → b ∈ f.blockIds) (b : BlockId) : ¬ Relation.TransGen f.LeadsTo b b := by
  intro hbb
  obtain ⟨c, ⟨x, -, -, hx, -⟩, -⟩ := Relation.TransGen.head'_iff.1 hbb
  obtain ⟨before, after, hsplit⟩ := List.append_of_mem (hp hx)
  have hmem := h.transGen hsplit hbb
  rw [hsplit, List.nodup_append, List.nodup_cons] at hn
  exact hn.2.1.1 hmem

/-- The blocks of a path stand in the layout in the order in which they are passed. -/
theorem LeadsOn.sublist_of_path (h : f.LeadsOn) {bs : List BlockId} {b : BlockId} (hpath : f.Path bs b) :
    ∃ before after, f.blockIds = before ++ b :: after ∧ bs.Sublist before := by
  induction hpath with
  | entry hb =>
    obtain ⟨after, hafter⟩ := List.head?_eq_some_iff.1 hb
    exact ⟨[], after, hafter, List.nil_sublist _⟩
  | @next bs b c _ hbc ih =>
    obtain ⟨before, after, hsplit, hsub⟩ := ih
    obtain ⟨p, q, rfl⟩ := List.append_of_mem (h hsplit hbc)
    refine ⟨before ++ b :: p, q, by rw [hsplit]; simp, ?_⟩
    exact hsub.append (List.singleton_sublist.2 (List.mem_cons_self ..))

end Function

namespace Site

variable {g g' : Site}

/-- Exits lead on, and only the end block returns. -/
structure Flows (g : Site) : Prop where
  forward : g.state.function.Forward
  returns : ∀ {b x j}, g.state.function.block? b = some x → x.exit = some (.give j) → b = g.state.endBlock

/-- An exit was there before, or it has just been given: it leads to blocks not placed yet, and only the end block
returns. -/
theorem Step.exit_cases (h : Step g g') {b : BlockId} {y : Block} {e : Exit}
    (hy : g'.state.function.block? b = some y) (he : y.exit = some e) :
    (∃ x, g.state.function.block? b = some x ∧ x.exit = some e) ∨
      (g'.state.function.blockIds = g.state.function.blockIds ∧
        (∀ t ∈ e.targets, ∃ c z, g.state.function.block? c = some z ∧ z.label = t ∧ g.state.function.Pending c) ∧
        ∀ j, e = .give j → b = g.state.endBlock) := by
  cases h with
  | lowerType | intern | scopes | constant | literal | start => exact Or.inl ⟨y, hy, he⟩
  | @emit s k op ty x hop hx hopen =>
    rw [Function.block?_withEmitted hx] at hy
    split at hy
    · cases hy
      simp [hopen] at he
    · exact Or.inl ⟨y, hy, he⟩
  | @newBlock s k =>
    rw [Function.block?_withLabel_eq] at hy
    split at hy
    · cases hy
      cases he
    · exact Or.inl ⟨y, hy, he⟩
  | @leave s k e' x hx hopen hgive hto hcond =>
    rw [Function.block?_withExit hx] at hy
    split at hy
    · cases hy
      cases he
      refine Or.inr ⟨rfl, ?_, fun j hj => absurd hj (hgive j)⟩
      intro t ht
      obtain ⟨c, z, hz, hl, hreach⟩ := hto t ht
      exact ⟨c, z, hz, hl, hreach.1⟩
    · exact Or.inl ⟨y, hy, he⟩
  | @give s k value x hend hx hopen =>
    rw [Function.block?_withReturn hx] at hy
    split at hy
    · next hb =>
      cases hy
      cases he
      exact Or.inr ⟨rfl, by simp [Exit.targets], fun _ _ => hb.trans hend⟩
    · exact Or.inl ⟨y, hy, he⟩

theorem Step.flows (h : Step g g') (hs : g.Sound) (hf : g.Flows) : g'.Flows := by
  refine ⟨?_, ?_⟩
  · intro before b after y e t hsplit hy he ht
    rcases h.exit_cases hy he with ⟨x, hx, hxe⟩ | ⟨hids, hto, -⟩
    · have hmem : b ∈ g.state.function.blockIds := by
        by_contra hb
        rw [(hs.laid.blank hx hb).2] at hxe
        cases hxe
      obtain ⟨before', after', hsplit'⟩ := List.append_of_mem hmem
      obtain ⟨rest, hrest⟩ := h.function_grows.blockIds
      -- more blocks may have been placed, all of them later
      have hsame : g'.state.function.blockIds = before' ++ b :: (after' ++ rest) := by
        rw [← hrest, hsplit']
        simp
      obtain ⟨rfl, -⟩ := split_unique (h.laid hs.coherent hs.laid).nodup hsplit hsame
      obtain ⟨c, hc, hnot⟩ := hf.forward hsplit' hx hxe ht
      exact ⟨c, h.function_grows.labelTarget? hc, hnot⟩
    · obtain ⟨c, z, hz, hl, hpend⟩ := hto t ht
      have hc : g.state.function.labelTarget? t = some c := hs.coherent.label_iff.2 ⟨z, hz, hl⟩
      refine ⟨c, h.function_grows.labelTarget? hc, fun hm => hpend.2 ?_⟩
      rw [← hids, hsplit]
      rcases List.mem_append.1 hm with hm | hm
      · exact List.mem_append_left _ hm
      · exact List.mem_append_right _ (by simp_all)
  · intro b y j hy he
    rw [h.endBlock_eq]
    rcases h.exit_cases hy he with ⟨x, hx, hxe⟩ | ⟨-, -, hgive⟩
    · exact hf.returns hx hxe
    · exact hgive j rfl

theorem Trace.flows (h : Trace g g') (hs : g.Sound) (hf : g.Flows) : g'.Flows := by
  induction h with
  | refl => exact hf
  | tail ht hstep ih => exact hstep.flows (Trace.sound ht hs) ih

/-! ## The two ends of a definition -/

/-- The return slot is the result of the first instruction. -/
theorem prepareReturn_gives {s s' : LoweringState} {a : Unit} (h : Gives Lowering.prepareReturn s a s') :
    (s.function.returnType.isNil = true ∧ s' = s) ∨
      (s.function.returnType.isNil = false ∧ ∃ x ty, s.function.block? s.current = some x ∧ x.exit = none ∧
        s' = { s with function :=
          { s.function.withEmitted s.current x (.alloca s.function.returnType 1) ty with
            returnSlot := some (s.function.resultValue ty) } }) := by
  simp only [Lowering.prepareReturn, gives_get_bind, gives_ite, gives_pure, gives_bind (x := Lowering.alloca _)] at h
  rcases h with ⟨hnil, -, rfl⟩ | ⟨hnil, slot, s₁, h₁, h₂⟩
  · exact Or.inl ⟨hnil, rfl⟩
  · obtain ⟨f₁, hf₁, rfl⟩ := Lowering.gives_emit.1 h₁
    obtain ⟨x, ty, -, hx, hopen, -, -, -, rfl, rfl⟩ := Function.pushInstruction_gives hf₁
    simp only [Lowering.gives_inFunction, Function.setReturnSlot, gives_modify] at h₂
    obtain ⟨f₂, rfl, rfl⟩ := h₂
    exact Or.inr ⟨by simpa using hnil, x, ty, hx, hopen, rfl⟩

theorem instruction?_withEmitted {f : Function} {b : BlockId} {x : Block} (op : Operation) (ty : Option LoweredType)
    (i : InstructionId) : (f.withEmitted b x op ty).instruction? i =
      if i = f.nextInstruction then some ⟨op, f.resultValue ty⟩ else f.instruction? i :=
  Function.instruction?_withInstruction op ty i

theorem instruction?_withReturn {f : Function} {b : BlockId} {x : Block} (value : Option ValueId)
    (i : InstructionId) : (f.withReturn b x value).instruction? i =
      if i = f.nextInstruction then some ⟨.give value, Function.nilValue⟩ else f.instruction? i :=
  Function.instruction?_withInstruction (.give value) none i

/-- The last block is placed, reads the return slot if there is one, and returns. -/
theorem finish_gives {s s' : LoweringState} {b : BlockId} {x : Block} {a : Unit}
    (h : Gives (do Lowering.startBlock b; Lowering.finishReturn) s a s') (hx : s.function.block? b = some x) :
    s'.current = b ∧
      (s.function.returnSlot = none → ∃ j, s'.function.block? b = some { x with exit := some (.give j) } ∧
        s'.function.instruction? j = some ⟨.give none, Function.nilValue⟩) ∧
      ∀ slot, s.function.returnSlot = some slot → ∃ i v j,
        s'.function.block? b = some ⟨x.label, x.instructions.push i, some (.give j)⟩ ∧
        s'.function.instruction? i = some ⟨.read slot, v⟩ ∧
        s'.function.instruction? j = some ⟨.give (some v), Function.nilValue⟩ := by
  obtain ⟨_, _, h₁, h₂⟩ := gives_bind.1 h
  obtain ⟨f, hf, rfl⟩ := Lowering.gives_startBlock.1 h₁
  obtain ⟨l, hlay, -, rfl⟩ := Function.appendBlock_gives hf
  have hx' : (s.function.place b).block? b = some x := hx
  simp only [Lowering.finishReturn, gives_get_bind] at h₂
  cases hret : s.function.returnSlot with
  | none =>
    have hnone : (s.function.place b).returnSlot = none := hret
    simp only [hnone, pure_bind, Lowering.gives_inFunction] at h₂
    obtain ⟨f₁, hf₁, rfl⟩ := h₂
    obtain ⟨y, ty, hy, -, -, -, rfl⟩ := Function.setReturn_gives hf₁
    obtain rfl := Option.some.inj (hx'.symm.trans hy)
    refine ⟨rfl, fun _ => ⟨(s.function.place b).nextInstruction, ?_, ?_⟩, fun slot hslot => ?_⟩
    · rw [Function.block?_withReturn hx', if_pos rfl]
    · rw [instruction?_withReturn, if_pos rfl]
    · cases hslot
  | some slot =>
    have hsome : (s.function.place b).returnSlot = some slot := hret
    simp only [hsome, gives_bind (x := Lowering.emit _), pure_bind, Lowering.gives_inFunction] at h₂
    obtain ⟨v, s₁, hread, f₂, hf₂, rfl⟩ := h₂
    obtain ⟨f₁, hf₁, rfl⟩ := Lowering.gives_emit.1 hread
    obtain ⟨y, ty, -, hy, -, -, -, -, rfl, rfl⟩ := Function.pushInstruction_gives hf₁
    obtain rfl := Option.some.inj (hx'.symm.trans hy)
    obtain ⟨z, ty', hz, -, -, -, rfl⟩ := Function.setReturn_gives hf₂
    have hz' := hz
    rw [Function.block?_withEmitted hx', if_pos rfl] at hz'
    cases hz'
    refine ⟨rfl, (fun hnone => by cases hnone), ?_⟩
    rintro _ ⟨⟩
    refine ⟨(s.function.place b).nextInstruction, (s.function.place b).resultValue ty,
      ((s.function.place b).withEmitted b x (.read slot) ty).nextInstruction, ?_, ?_, ?_⟩
    · rw [Function.block?_withReturn hz, if_pos rfl]
    · rw [instruction?_withReturn, if_neg, instruction?_withEmitted, if_pos rfl]
      intro heq
      have := congrArg Handle.index heq
      simp [Function.nextInstruction, Function.withEmitted, Function.put] at this
    · rw [instruction?_withReturn, if_pos rfl]

/-! ## The whole definition -/

theorem Done.placed_iff (h : g.Done) {b : BlockId} :
    b ∈ g.state.function.blockIds ↔ ∃ x, g.state.function.block? b = some x := by
  constructor
  · exact fun hb => Function.exists_block? (h.sound.laid.inRange hb)
  · rintro ⟨x, hx⟩
    by_contra hb
    exact h.placed b ⟨Function.block?_lt hx, hb⟩

/-- Once every block is placed, exits lead to blocks placed later. -/
theorem Done.forward (h : g.Done) (hf : g.Flows) {before after : List BlockId} {b : BlockId} {x : Block} {e : Exit}
    {t : ValueId} (hsplit : g.state.function.blockIds = before ++ b :: after) (hx : g.state.function.block? b = some x)
    (he : x.exit = some e) (ht : t ∈ e.targets) : ∃ c ∈ after, g.state.function.labelTarget? t = some c := by
  obtain ⟨c, hc, hnot⟩ := hf.forward hsplit hx he ht
  obtain ⟨y, hy, -⟩ := h.sound.coherent.label_iff.1 hc
  have hmem : c ∈ g.state.function.blockIds := h.placed_iff.2 ⟨y, hy⟩
  rw [hsplit] at hmem
  refine ⟨c, ?_, hc⟩
  simp only [List.mem_append, List.mem_cons, List.not_mem_nil, or_false, not_or] at hmem hnot
  tauto

/-- A block of a complete definition has a way out, returns, or is never left. -/
theorem Done.exit_cases (h : g.Done) {b : BlockId} {x : Block} (hx : g.state.function.block? b = some x) :
    (∃ c, g.state.function.LeadsTo b c) ∨ (∃ j, x.exit = some (.give j)) ∨ x.exit = some .unreachable := by
  obtain ⟨e, he⟩ : ∃ e, x.exit = some e := by
    by_cases hb : b = g.state.current
    · obtain ⟨y, j, hy, he, -⟩ := h.returns
      rw [← hb, hx] at hy
      cases hy
      exact ⟨_, he⟩
    · obtain ⟨y, hy, he⟩ := h.sound.laid.closed (h.placed_iff.2 ⟨x, hx⟩) hb
      rw [hx] at hy
      cases hy
      exact Option.isSome_iff_exists.1 he
  have target : ∀ t ∈ e.targets, ∃ c, g.state.function.LeadsTo b c := by
    intro t ht
    obtain ⟨c, hc⟩ := h.sound.coherent.targets hx he t ht
    exact ⟨c, x, e, t, hx, he, ht, hc⟩
  cases e with
  | branch t => exact Or.inl (target t (by simp [Exit.targets]))
  | condBranch c t o => exact Or.inl (target t (by simp [Exit.targets]))
  | give j => exact Or.inr (Or.inl ⟨j, he⟩)
  | unreachable => exact Or.inr (Or.inr he)

/-- What is in place when the body is started: the entry block, open, with the return slot if there is one. -/
structure Prepared (g : Site) (ret : LoweredType) : Prop where
  flows : g.Flows
  first : g.state.function.blockIds = [⟨0⟩]
  value : ret.isNil = false → ∃ x i slot, g.state.function.returnSlot = some slot ∧
    g.state.function.block? ⟨0⟩ = some x ∧ x.instructions.toList = [i] ∧
    g.state.function.instruction? i = some ⟨.alloca ret 1, slot⟩
  nothing : ret.isNil = true → g.state.function.returnSlot = none

theorem Flows.of_open (h : ∀ {b x}, g.state.function.block? b = some x → x.exit = none) : g.Flows := by
  refine ⟨fun _ hx he => ?_, fun hx he => ?_⟩
  · rw [h hx] at he
    cases he
  · rw [h hx] at he
    cases he

theorem prepared_of_prepareReturn {u : CompilationUnit} {f : Function} {tys : List LoweredType} (hf : f.Fresh tys)
    (h : Gives Lowering.prepareReturn ⟨u, f.opened, ⟨0⟩, ⟨1⟩, [[]]⟩ () g.state) : g.Prepared f.returnType := by
  have hids : f.opened.blockIds = [⟨0⟩] := hf.blockIds_opened
  rcases prepareReturn_gives h with ⟨hnil, hs⟩ | ⟨hnil, x, ty, hx, hopen, hs⟩
  · have hfun : g.state.function = f.opened := by rw [hs]
    refine ⟨.of_open fun hx => ?_, by rw [hfun, hids], fun hn => ?_, fun _ => ?_⟩
    · rw [hfun] at hx
      exact (hf.block?_opened hx).2
    · exact absurd (hnil.symm.trans hn) (by simp)
    · rw [hfun]
      exact hf.returnSlot
  · have hblock : ∀ b, g.state.function.block? b =
        if b = ⟨0⟩ then some { x with instructions := x.instructions.push f.opened.nextInstruction }
        else f.opened.block? b := by
      intro b
      rw [hs]
      exact Function.block?_withEmitted hx _ ty b
    refine ⟨.of_open fun {b y} hy => ?_, ?_, fun _ => ?_, fun hn => ?_⟩
    · rw [hblock] at hy
      split at hy
      · cases hy
        exact hopen
      · exact (hf.block?_opened hy).2
    · rw [← hids, hs]
      cases ty <;> rfl
    · refine ⟨_, f.opened.nextInstruction, f.opened.resultValue ty, ?_, by rw [hblock, if_pos rfl], ?_, ?_⟩
      · rw [hs]
      · simp [(hf.block?_opened hx).1]
      · rw [hs]
        exact (instruction?_withEmitted (b := ⟨0⟩) (x := x) _ ty _).trans (if_pos rfl)
    · exact absurd (hnil.symm.trans hn) (by simp)

/-- **A lowered definition has the shape of `Function.ControlFlow`.** -/
theorem Course.controlFlow {item : FunctionItem} {u : CompilationUnit} {f : Function} {tys : List LoweredType}
    {g₁ g₂ g₃ g₄ : Site} (h : Course item ⟨u, f.opened, ⟨0⟩, ⟨1⟩, [[]]⟩ g₁ g₂ g₃ g₄ g) (hf : f.Fresh tys)
    (hgrow : f.opened.Grows g₁.state.function) :
    g.state.function.ControlFlow ⟨0⟩ g.state.current := by
  have hprep := prepared_of_prepareReturn hf h.prepared
  have htrace := h.trace
  have hgrow₁ := htrace.function_grows
  have hs₁ := h.started.ready.sound
  have hflows := htrace.flows hs₁ hprep.flows
  have hdone := h.done
  have hret : g.state.function.returnType = f.returnType := hgrow₁.returnType.trans hgrow.returnType
  have hslot : g.state.function.returnSlot = g₁.state.function.returnSlot := htrace.returnSlot_eq
  -- the end block is untouched when it is placed
  have ht₄ : Trace g₁ g₄ := h.trace₁.trans (h.trace₂.trans h.trace₃)
  obtain ⟨x, hx⟩ := Function.exists_block? h.pending.1
  obtain ⟨hblank, -⟩ := (ht₄.sound hs₁).laid.blank hx h.pending.2
  obtain ⟨hcur, hnothing, hvalue⟩ := finish_gives h.finished hx
  rw [ht₄.returnSlot_eq] at hnothing hvalue
  have hend : g.state.endBlock = g.state.current := htrace.endBlock_eq.trans hcur.symm
  obtain ⟨y, j, hy, hyj, hlabel⟩ := hdone.returns
  have hon : g.state.function.LeadsOn := by
    rintro before b after c hsplit ⟨z, e, t, hz, he, ht, hc⟩
    obtain ⟨d, hd, hdt⟩ := hdone.forward hflows hsplit hz he ht
    exact Option.some.inj (hc.symm.trans hdt) ▸ hd
  have hn := hdone.sound.laid.nodup
  have hp : ∀ {b z}, g.state.function.block? b = some z → b ∈ g.state.function.blockIds :=
    fun hz => hdone.placed_iff.2 ⟨_, hz⟩
  have hreturns : ∀ {b z}, g.state.function.block? b = some z →
      ((∃ j, z.exit = some (.give j)) ↔ b = g.state.current) := by
    intro b z hz
    constructor
    · rintro ⟨i, hi⟩
      rw [hflows.returns hz hi, hend]
    · rintro rfl
      rw [hy] at hz
      cases hz
      exact ⟨j, hyj⟩
  obtain ⟨bs, hbs⟩ := hdone.sound.laid.last
  obtain ⟨rest, hrest⟩ := hgrow₁.blockIds
  rw [hprep.first] at hrest
  exact
    { first := by rw [← hrest]; rfl
      last := by rw [hbs, List.getLast?_concat]
      nodup := hn
      placed := hdone.placed_iff
      forward := hdone.forward hflows
      acyclic := hon.acyclic hn hp
      path := by
        intro before b hpath
        obtain ⟨l, r, hsplit, hsub⟩ := hon.sublist_of_path hpath
        refine ⟨?_, ?_⟩
        · rw [hsplit]
          exact hsub.append (List.singleton_sublist.2 (List.mem_cons_self ..))
        · obtain ⟨z, hz⟩ := hdone.placed_iff.1 (show b ∈ g.state.function.blockIds by simp [hsplit])
          rcases hdone.exit_cases hz with hout | hgive | hun
          · exact Or.inl hout
          · exact Or.inr (Or.inl ((hreturns hz).1 hgive))
          · exact Or.inr (Or.inr ⟨z, hz, hun⟩)
      returns := hreturns
      endLabel := ⟨y, hy, hlabel⟩
      value := by
        intro hnil
        rw [hret] at hnil
        obtain ⟨e, i, slot, hs, he, hei, hi⟩ := hprep.value hnil
        obtain ⟨e', he', hee⟩ := hgrow₁.block he
        obtain ⟨more, hmore⟩ := hee.instructions
        obtain ⟨r, v, k, hk, hr, hkg⟩ := hvalue slot hs
        rw [← hcur] at hk
        refine ⟨slot, hslot.trans hs, ⟨e', i, more, he', ?_, ?_⟩, ⟨_, r, v, k, hk, ?_, hr, rfl, hkg⟩⟩
        · rw [← hmore, hei]
          rfl
        · rw [hret]
          exact hgrow₁.instruction? hi
        · rw [hblank]
          rfl
      nothing := by
        intro hnil
        rw [hret] at hnil
        have hs := hprep.nothing hnil
        obtain ⟨k, hk, hkg⟩ := hnothing hs
        rw [← hcur] at hk
        exact ⟨hslot.trans hs, _, k, hk, hblank, rfl, hkg⟩ }

end Site

namespace CompilationUnit

variable {u u' : CompilationUnit}

/-- The function is the definition that some item was lowered to, with the types that its signature was lowered to. -/
def Defined (f : Function) : Prop :=
  ∃ (item : FunctionItem) (arguments : List LoweredType) (result : LoweredType) (u u₁ u' : CompilationUnit),
    u.Closed ∧ Gives (lowerSignature item.signature) u (arguments, result) u₁ ∧
      Gives (defineFunction item arguments result) u₁ f u'

/-- A declared item adds no function but a declaration. -/
theorem declareItem_values {item : Item} (hu : u.Closed) (h : Gives (declareItem item) u () u') {f : Function}
    (hf : f ∈ u'.functions.values) :
    f ∈ u.functions.values ∨ ∃ name arguments result, f = .declaration name arguments result := by
  have declared : ∀ {s : Signature}, Gives (declareFunction s) u () u' →
      f ∈ u.functions.values ∨ ∃ name arguments result, f = .declaration name arguments result := by
    intro s h
    obtain ⟨arguments, result, u₁, id, h₁, h₂⟩ := declareFunction_gives h
    rw [(addFunction_gives h₂).1] at hf
    rcases Table.mem_values_insert hf with rfl | hf
    · exact Or.inr ⟨s.name, arguments, result, rfl⟩
    · exact Or.inl ((lowerSignature_gives h₁ hu).1.functions ▸ hf)
  cases item with
  | type t =>
    simp only [declareItem, gives_bind, gives_pure] at h
    obtain ⟨ty, _, h, -, rfl⟩ := h
    exact Or.inl ((extends_of_lowerType h).functions ▸ hf)
  | function f => exact declared h
  | foreign s => exact declared h

/-- A lowered item adds no function but its definition. -/
theorem lowerItem_values {item : Item} (hu : u.Closed) (h : Gives (lowerItem item) u () u') {f : Function}
    (hf : f ∈ u'.functions.values) : f ∈ u.functions.values ∨ Defined f := by
  cases item with
  | type t | foreign s =>
    obtain ⟨-, rfl⟩ := gives_pure.1 h
    exact Or.inl hf
  | function item =>
    obtain ⟨arguments, result, u₁, d, u₂, id, h₁, h₂, h₃⟩ := lowerFunction_gives h
    obtain ⟨he, hc, ha, hr, -⟩ := lowerSignature_gives h₁ hu
    rw [(addFunction_gives h₃).1] at hf
    rcases Table.mem_values_insert hf with rfl | hf
    · exact Or.inr ⟨item, arguments, result, u, u₁, u₂, hu, h₁, h₂⟩
    · obtain ⟨-, -, -, -, he', -⟩ := defineFunction_done hc ha hr h₂
      rw [he'.functions, he.functions] at hf
      exact Or.inl hf

/-- A definition has the shape of its control flow. -/
theorem Defined.controlFlow {f : Function} (h : Defined f) : ∃ entry final, f.ControlFlow entry final := by
  obtain ⟨item, arguments, result, u, u₁, u', hu, hsig, h⟩ := h
  obtain ⟨-, hu₁, ha, hr, -⟩ := lowerSignature_gives hsig hu
  obtain ⟨f₀, g₁, g₂, g₃, g₄, g, hcourse, rfl, -, -, hgrow, hf, -⟩ := defineFunction_course hu₁ ha hr h
  exact ⟨_, _, hcourse.controlFlow hf hgrow⟩

end CompilationUnit

/-- What holds of declarations and of definitions that items were lowered to holds of every function of a lowered
unit. -/
theorem Module.lower_functions {P : Function → Prop} {m : Module} {options : Options} {u : CompilationUnit}
    (h : m.lower options = .ok u) (hdeclared : ∀ name arguments result, P (.declaration name arguments result))
    (hdefined : ∀ f, CompilationUnit.Defined f → P f) : ∀ f ∈ u.functions.values, P f := by
  obtain ⟨u₁, h₁, h₂⟩ := CompilationUnit.lowerProgram_gives (Module.lower_gives h)
  let Sorted : CompilationUnit → Prop := fun v => v.Finished ∧ ∀ f ∈ v.functions.values, P f
  have hempty : Sorted (.empty m.name options) := ⟨CompilationUnit.finished_empty _ _, by rintro f ⟨⟩⟩
  have hu₁ : Sorted u₁ := by
    refine CompilationUnit.collectingAll_keeps (P := Sorted) ?_ h₁ hempty
    rintro item v v' - hv ⟨hfin, hall⟩
    refine ⟨hfin.declareItem hv, fun f hf => ?_⟩
    rcases CompilationUnit.declareItem_values hfin.closed hv hf with hf | ⟨name, arguments, result, rfl⟩
    · exact hall f hf
    · exact hdeclared name arguments result
  have hu : Sorted u := by
    refine CompilationUnit.collectingAll_keeps (P := Sorted) ?_ h₂ hu₁
    rintro item v v' - hv ⟨hfin, hall⟩
    refine ⟨hfin.lowerItem hv, fun f hf => ?_⟩
    rcases CompilationUnit.lowerItem_values hfin.closed hv hf with hf | hd
    · exact hall f hf
    · exact hdefined f hd
  exact hu.2

/-- The functions of a lowered unit are declarations, or definitions that items were lowered to. -/
theorem Module.lower_defined {m : Module} {options : Options} {u : CompilationUnit} (h : m.lower options = .ok u) :
    ∀ f ∈ u.functions.values, f.isDeclaration = true ∨ CompilationUnit.Defined f :=
  Module.lower_functions h (fun _ _ _ => Or.inl rfl) fun _ hd => Or.inr hd

/-- **Control flow goes forward.**  In every definition of a lowered unit exits lead to blocks placed later, every path
ends in the end block or in a block that is never left, and the end block is the last one and the only one that returns:
the value of the return slot, which the entry block makes first, or nothing. -/
theorem Module.lower_controlFlow {m : Module} {options : Options} {u : CompilationUnit} (h : m.lower options = .ok u)
    {f : Function} (hf : f ∈ u.functions.values) (hd : f.isDeclaration = false) :
    ∃ entry final, f.ControlFlow entry final := by
  rcases Module.lower_defined h f hf with hdecl | hdef
  · rw [hd] at hdecl
    cases hdecl
  · exact hdef.controlFlow

/-- In the sample, the first function has its shape. -/
theorem Sample.smaller_controlFlow :
    ∃ f ∈ Sample.lowered.functions.values, f.isDeclaration = false ∧ ∃ entry final, f.ControlFlow entry final := by
  have hrun : Sample.lowered.functions.values.head?.any (fun f => f.isDeclaration = false) = true := by decide +kernel
  obtain ⟨f, hf, hd⟩ := (Option.any_eq_true _ _).1 hrun
  have hmem := List.mem_of_mem_head? (Option.mem_def.2 hf)
  have hd := of_decide_eq_true hd
  exact ⟨f, hmem, hd, Module.lower_controlFlow Sample.lower_program hmem hd⟩

end BlockForm
