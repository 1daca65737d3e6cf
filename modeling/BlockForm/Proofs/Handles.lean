import BlockForm.Proofs.Atomicity

/-!
# BlockForm.Proofs.Handles — what a function refers to exists

A layout holds handles of blocks, and a block that returns holds the handle of its return instruction.  The builder
checks neither of them where it is handed in from outside: a block is placed without being looked up, and a return can
be set as an exit like any other.  A request is admitted (`Function.Admits`) if it passes the check that the builder
leaves out.  The handles of a function stay valid along a run exactly if every request of the run is refused or
admitted.
-/

namespace BlockForm

open Action

namespace Function

variable {f g : Function} {α β : Type}

/-! ## Valid handles -/

/-- The handle names a return instruction of the function whose operand has the type of the function's result; a
function without a result returns without an operand, and no other does. -/
def ReturnFits (f : Function) (i : InstructionId) : Prop :=
  ∃ value result, f.instruction? i = some ⟨.give value, result⟩ ∧ (value = none ↔ f.returnType.isNil = true) ∧
    ∀ v ∈ value, f.operandType v = .ok f.returnType

/-- The blocks that are placed and the returns that blocks end with are there. -/
structure HandlesValid (f : Function) : Prop where
  placed : ∀ b ∈ f.blockIds, (f.block? b).isSome
  returns : ∀ {b x i}, f.block? b = some x → x.exit = some (.give i) → f.ReturnFits i

/-- What has to hold of a request and is not looked at by the builder. -/
def Admits (f : Function) : Request → Prop
  | .place b => (f.block? b).isSome
  | .leave _ (.give i) => f.ReturnFits i
  | .give _ _ (some _) => f.returnType.isNil = false
  | _ => True

theorem ReturnFits.grows {i : InstructionId} (h : f.ReturnFits i) (hg : f.Grows g) : g.ReturnFits i := by
  obtain ⟨value, result, hi, hnil, hty⟩ := h
  refine ⟨value, result, hg.instruction? hi, by rw [hg.returnType]; exact hnil, fun v hv => ?_⟩
  rw [hg.returnType]
  exact hg.operandType (hty v hv)

/-- Handles stay valid if all that is new is valid. -/
theorem HandlesValid.grows (hf : f.HandlesValid) (hg : f.Grows g)
    (hplaced : ∀ b ∈ g.blockIds, b ∈ f.blockIds ∨ (g.block? b).isSome)
    (hreturns : ∀ b y i, g.block? b = some y → y.exit = some (.give i) →
      (∃ x, f.block? b = some x ∧ x.exit = some (.give i)) ∨ g.ReturnFits i) : g.HandlesValid := by
  constructor
  · intro b hb
    rcases hplaced b hb with hold | hnew
    · obtain ⟨x, hx⟩ := Option.isSome_iff_exists.1 (hf.placed b hold)
      obtain ⟨y, hy, -⟩ := hg.block hx
      rw [hy]
      rfl
    · exact hnew
  · intro b y i hy he
    rcases hreturns b y i hy he with ⟨x, hx, hxe⟩ | hnew
    · exact (hf.returns hx hxe).grows hg
    · exact hnew

/-- A change that neither places a block nor ends one keeps handles valid. -/
theorem HandlesValid.of_exits (hf : f.HandlesValid) (hg : f.Grows g) (hlayout : g.layout = f.layout)
    (hexit : ∀ b y i, g.block? b = some y → y.exit = some (.give i) →
      ∃ x, f.block? b = some x ∧ x.exit = some (.give i)) : g.HandlesValid := by
  refine hf.grows hg (fun b hb => ?_) fun b y i hy he => Or.inl (hexit b y i hy he)
  rw [blockIds, hlayout] at hb
  exact Or.inl hb

/-! ## A refused request -/

/-- `g` has the blocks and the layout of `f`. -/
structure SameBlocks (f g : Function) : Prop where
  blocks : g.blocks = f.blocks
  layout : g.layout = f.layout

theorem SameBlocks.trans {h : Function} (h₁ : f.SameBlocks g) (h₂ : g.SameBlocks h) : f.SameBlocks h :=
  ⟨h₂.blocks.trans h₁.blocks, h₂.layout.trans h₁.layout⟩

/-- `g` has the blocks and the layout of `f`, and of everything else at least what `f` has. -/
structure Retains (f g : Function) : Prop extends Grows f g, SameBlocks f g

theorem Retains.refl (f : Function) : f.Retains f := ⟨Grows.refl f, rfl, rfl⟩

theorem Retains.trans {h : Function} (h₁ : f.Retains g) (h₂ : g.Retains h) : f.Retains h :=
  ⟨h₁.toGrows.trans h₂.toGrows, h₁.toSameBlocks.trans h₂.toSameBlocks⟩

theorem Retains.valid (h : f.Retains g) (hf : f.HandlesValid) : g.HandlesValid := by
  refine hf.of_exits h.toGrows h.layout fun b y i hy he => ?_
  rw [block?, h.blocks] at hy
  exact ⟨y, hy, he⟩

/-- The step touches no block and no layout, whether it succeeds or not. -/
def Retaining (x : Building α) : Prop := ∀ f : Function, f.Retains (x f).state

/-- The step touches no block and no layout if it fails. -/
def Refuses (x : Building α) : Prop := ∀ f e g, x.Fails f e g → f.Retains g

theorem Retaining.bind {x : Building α} {k : α → Building β} (hx : Retaining x) (hk : ∀ a, Retaining (k a)) :
    Retaining (x >>= k) := fun f => state_bind (hx f) fun a _ => (hx f).trans (hk a _)

theorem Retaining.refuses {x : Building α} (hx : Retaining x) : Refuses x := fun f _ _ h => h.2 ▸ hx f

theorem retaining_of_state {x : Building α} (h : ∀ f, (x f).state = f) : Retaining x := fun f => by
  rw [h f]
  exact .refl f

theorem refuses_of_restores {x : Building α} (h : ∀ f, (x f).Restores f) : Refuses x := by
  rintro f e g ⟨hfail, rfl⟩
  rw [h f e hfail]
  exact .refl f

/-- A step that fails after one that retains has retained all the same. -/
theorem Refuses.after {x : Building α} {k : α → Building β} (hx : Retaining x) (hk : ∀ a, Refuses (k a)) :
    Refuses (x >>= k) := by
  intro f e g h
  rcases fails_bind.1 h with ⟨-, rfl⟩ | ⟨a, t, ⟨-, rfl⟩, hfail⟩
  · exact hx f
  · exact (hx f).trans (hk a _ e g hfail)

/-- What follows the last step that can fail does not matter. -/
theorem Refuses.before {x : Building α} {k : α → Building β} (hx : Refuses x)
    (hk : ∀ a f, ∃ b, (k a f).result = .ok b) : Refuses (x >>= k) := by
  intro f e g h
  rcases fails_bind.1 h with hfail | ⟨a, t, -, hfail⟩
  · exact hx f e g hfail
  · obtain ⟨b, hb⟩ := hk a t
    cases hb.symm.trans hfail.1

theorem retaining_get : Retaining Action.get := retaining_of_state fun _ => rfl

theorem retaining_check (r : Except Fault α) : Retaining (Action.check r) :=
  retaining_of_state fun _ => by cases r <;> rfl

theorem retaining_handle (kind : HandleKind) (n : Nat) : Retaining (Action.handle kind n) :=
  retaining_of_state fun _ => by
    unfold Action.handle
    split <;> rfl

theorem retaining_fault (e : Fault) : Retaining (Action.fault e : Building α) := retaining_of_state fun _ => rfl

/-- Names and counters are neither blocks nor values. -/
theorem retains_bookkeeping (f : Function) (names : NameTable) (nextVariable nextLabel : Nat) :
    f.Retains { f with names := names, nextVariable := nextVariable, nextLabel := nextLabel } :=
  ⟨⟨rfl, rfl, rfl, rfl, rfl, rfl, List.prefix_refl _, List.prefix_refl _, List.prefix_refl _,
    fun hx => ⟨_, hx, .refl _⟩⟩, rfl, rfl⟩

theorem retaining_freshLabel : Retaining freshLabel := fun f => retains_bookkeeping f f.names f.nextVariable _

theorem retaining_freshVariable : Retaining freshVariable := fun f => retains_bookkeeping f f.names _ f.nextLabel

theorem retaining_bindName (name : String) (o : Object) : Retaining (bindName name o) := fun f =>
  retains_bookkeeping f _ f.nextVariable f.nextLabel

theorem retaining_pushValue (x : Value) : Retaining (pushValue x) := by
  refine .bind retaining_get fun f => .bind (retaining_handle _ _) fun id => .bind (fun g => ?_) fun _ => ?_
  · exact ⟨grows_withValue x, rfl, rfl⟩
  · exact retaining_of_state fun _ => rfl

theorem retaining_newInstruction (op : Operation) (ty : Option LoweredType) : Retaining (newInstruction op ty) := by
  refine .bind retaining_get fun f => .bind (retaining_handle _ _) fun id => ?_
  have hlast : ∀ v, Retaining (do
      Action.modify fun f => { f with instructions := f.instructions.push ⟨op, v⟩ }
      return id) := fun v => by
    refine .bind (fun g => ?_) fun _ => retaining_of_state fun _ => rfl
    exact ⟨⟨rfl, rfl, rfl, rfl, rfl, rfl, List.prefix_refl _, by simp [Action.modify], List.prefix_refl _,
      fun hx => ⟨_, hx, .refl _⟩⟩, rfl, rfl⟩
  cases ty with
  | none => exact .bind (retaining_of_state fun _ => rfl) hlast
  | some ty =>
    refine .bind retaining_freshVariable fun name => .bind (retaining_bindName _ _) fun _ => ?_
    exact .bind (retaining_pushValue _) hlast

theorem refuses_newBlock : Refuses newBlock := by
  refine .after retaining_get fun f => ?_
  split
  · exact (retaining_fault _).refuses
  · refine .after (retaining_handle _ _) fun b => .after retaining_freshLabel fun id => ?_
    refine .after (retaining_bindName _ _) fun _ => .before (retaining_pushValue _).refuses fun label g => ?_
    exact ⟨b, rfl⟩

theorem refuses_updateBlock (b : BlockId) (change : Block → Block) : Refuses (updateBlock b change) :=
  refuses_of_restores fun _ => restores_get_bind (restores_check_bind fun _ _ => nofun)

theorem refuses_pushInstruction (u : CompilationUnit) (b : BlockId) (op : Operation) :
    Refuses (pushInstruction u b op) := by
  unfold pushInstruction
  split
  · exact (retaining_fault _).refuses
  · refine .after retaining_get fun f => .after (retaining_check _) fun _ => .after (retaining_check _) fun ty => ?_
    refine .after (retaining_newInstruction op ty) fun id => .after retaining_get fun g => ?_
    refine .after (retaining_of_state fun _ => rfl) fun _ => ?_
    exact .before (refuses_updateBlock _ _) fun _ _ => ⟨_, rfl⟩

theorem refuses_setReturn (u : CompilationUnit) (b : BlockId) (value : Option ValueId) :
    Refuses (setReturn u b value) := by
  refine .after retaining_get fun f => .after (retaining_check _) fun _ => .after (retaining_check _) fun _ => ?_
  exact .after (retaining_newInstruction _ _) fun id => refuses_of_restores fun _ => setExit_restores b _

/-- **A refused request touches no block and no layout**, even where it was refused for want of room. -/
theorem refuses_perform (r : Request) : Refuses r.perform := by
  cases r with
  | block => exact refuses_newBlock.before fun _ _ => ⟨(), rfl⟩
  | place b => exact refuses_of_restores fun _ => appendBlock_restores b
  | constant c e => exact refuses_of_restores fun _ => restores_ignore (pushValue_restores _)
  | literal id l => exact refuses_of_restores fun _ => restores_ignore (literal_restores id l)
  | instruction u b op => exact (refuses_pushInstruction u b op).before fun _ _ => ⟨(), rfl⟩
  | leave b e => exact refuses_of_restores fun _ => setExit_restores b e
  | give u b value => exact refuses_setReturn u b value

/-! ## A request that is carried out -/

theorem HandlesValid.withLabel (hf : f.HandlesValid) : f.withLabel.HandlesValid := by
  refine hf.of_exits grows_withLabel rfl fun b y i hy he => ?_
  rw [block?_withLabel_eq] at hy
  split at hy
  · cases hy
    cases he
  · exact ⟨y, hy, he⟩

theorem HandlesValid.withEmitted (hf : f.HandlesValid) {b : BlockId} {x : Block} (hx : f.block? b = some x)
    (hopen : x.exit = none) (op : Operation) (ty : Option LoweredType) :
    (f.withEmitted b x op ty).HandlesValid := by
  have hlayout : (f.withEmitted b x op ty).layout = f.layout := by cases ty <;> rfl
  refine hf.of_exits (grows_withEmitted hx hopen op ty) hlayout fun c y i hy he => ?_
  rw [block?_withEmitted hx] at hy
  split at hy
  · cases hy
    rw [hopen] at he
    cases he
  · exact ⟨y, hy, he⟩

/-- A block can be placed if it is there. -/
theorem handlesValid_place_iff (hf : f.HandlesValid) {l : Array BlockId} (hl : f.layout = some l) (b : BlockId) :
    (f.place b).HandlesValid ↔ (f.block? b).isSome := by
  constructor
  · intro h
    refine h.placed b ?_
    rw [blockIds_place hl]
    simp
  · intro hb
    refine hf.grows (grows_place b) (fun c hc => ?_) fun c y i hy he => Or.inl ⟨y, hy, he⟩
    rw [blockIds_place hl] at hc
    rcases List.mem_append.1 hc with hc | hc
    · exact Or.inl hc
    · obtain rfl := List.mem_singleton.1 hc
      exact Or.inr hb

/-- A block can be ended if a return it ends with fits. -/
theorem handlesValid_withExit_iff (hf : f.HandlesValid) {b : BlockId} {x : Block} (hx : f.block? b = some x)
    (hopen : x.exit = none) (e : Exit) :
    (f.withExit b x e).HandlesValid ↔ ∀ i, e = .give i → f.ReturnFits i := by
  constructor
  · rintro h i rfl
    exact h.returns (b := b) (by rw [block?_withExit hx, if_pos rfl]) rfl
  · intro hfits
    refine hf.grows (grows_withExit hx hopen e) (fun c hc => Or.inl hc) fun c y i hy he => ?_
    rw [block?_withExit hx] at hy
    split at hy
    · cases hy
      exact Or.inr (hfits i (Option.some.inj he))
    · exact Or.inl ⟨y, hy, he⟩

/-- A return that has passed the typing rule fits, unless it hands out an operand where there is no result. -/
theorem returnFits_withInstruction_iff {u : CompilationUnit} {value : Option ValueId} {ty : Option LoweredType}
    (hty : f.resultType u (.give value) = .ok ty) :
    (f.withInstruction (.give value) none).ReturnFits f.nextInstruction ↔
      (value.isSome → f.returnType.isNil = false) := by
  have hg : f.Grows (f.withInstruction (.give value) none) := grows_withInstruction _ _
  have hi : (f.withInstruction (.give value) none).instruction? f.nextInstruction = some ⟨.give value, nilValue⟩ := by
    rw [instruction?_withInstruction, if_pos rfl]
    rfl
  constructor
  · rintro ⟨value', result, hi', hnil, -⟩ hsome
    rw [hi] at hi'
    cases hi'
    rw [← Bool.not_eq_true, ← hg.returnType, ← hnil]
    rintro rfl
    cases hsome
  · intro hreturn
    refine ⟨value, nilValue, hi, ?_, fun v hv => ?_⟩
    · rw [hg.returnType]
      cases value with
      | none =>
        cases types_of_resultType hty with
        | giveNothing hn => exact iff_of_true rfl hn
      | some v => simp [hreturn rfl]
    · obtain rfl : value = some v := hv
      cases types_of_resultType hty with
      | give hv =>
        rw [hg.returnType]
        exact hg.operandType (operandType_eq_ok_iff_valueType?.2 hv)

/-- **A request that is carried out keeps handles valid exactly if it is admitted.** -/
theorem perform_valid_iff (hf : f.HandlesValid) {r : Request} {a : Unit} (h : Gives r.perform f a g) :
    g.HandlesValid ↔ f.Admits r := by
  cases r with
  | block =>
    obtain ⟨b, h⟩ := gives_ignore.1 h
    obtain ⟨-, -, -, -, -, rfl⟩ := newBlock_gives h
    exact iff_of_true hf.withLabel trivial
  | place b =>
    obtain ⟨l, hl, -, rfl⟩ := appendBlock_gives h
    exact handlesValid_place_iff hf hl b
  | constant c e =>
    obtain ⟨v, h⟩ := gives_ignore.1 h
    obtain ⟨-, -, rfl⟩ := constant_gives.1 h
    exact iff_of_true (hf.of_exits (grows_withValue _) rfl fun b y i hy he => ⟨y, hy, he⟩) trivial
  | literal id l =>
    obtain ⟨v, h⟩ := gives_ignore.1 h
    rcases literal_gives h with ⟨-, rfl⟩ | ⟨-, -, -, rfl⟩
    · exact iff_of_true hf trivial
    · exact iff_of_true (hf.of_exits (grows_withLiteral _ _) rfl fun b y i hy he => ⟨y, hy, he⟩) trivial
  | instruction u b op =>
    obtain ⟨v, h⟩ := gives_ignore.1 h
    obtain ⟨x, ty, -, hx, hopen, -, -, -, -, rfl⟩ := pushInstruction_gives h
    exact iff_of_true (hf.withEmitted hx hopen op ty) trivial
  | leave b e =>
    obtain ⟨-, x, ⟨hx, hopen⟩, rfl⟩ := setExit_gives.1 h
    rw [handlesValid_withExit_iff hf hx hopen]
    cases e <;> simp [Admits]
  | give u b value =>
    obtain ⟨x, ty, hx, hopen, hty, -, rfl⟩ := setReturn_gives h
    have hmade : (f.withInstruction (.give value) none).HandlesValid :=
      hf.of_exits (grows_withInstruction _ _) rfl fun b y i hy he => ⟨y, hy, he⟩
    have hx' : (f.withInstruction (.give value) none).block? b = some x := by rw [block?_withInstruction, hx]
    rw [withReturn, handlesValid_withExit_iff hmade hx' hopen]
    simp only [Exit.give.injEq, forall_eq']
    rw [returnFits_withInstruction_iff hty]
    cases value <;> simp [Admits]

/-! ## Any number of requests -/

/-- One more request. -/
theorem performAll_concat (rs : List Request) (r : Request) : ∀ f : Function,
    (Request.performAll (rs ++ [r]) f).state = (r.perform (Request.performAll rs f).state).state := by
  induction rs with
  | nil => exact fun _ => rfl
  | cons q rs ih => exact fun f => ih (q.perform f).state

theorem performAll_take_succ {requests : List Request} {n : Nat} {r : Request} (hr : requests[n]? = some r)
    (f : Function) : (Request.performAll (requests.take (n + 1)) f).state =
      (r.perform (Request.performAll (requests.take n) f).state).state := by
  rw [List.take_add_one, hr]
  exact performAll_concat _ r f

theorem pushArgument_sameBlocks (position : Nat) (ty : LoweredType) (f : Function) :
    f.SameBlocks (pushArgument position ty f).state := by
  have hname : f.SameBlocks (freshVariable f).state := (retaining_freshVariable f).toSameBlocks
  refine state_bind (R := f.SameBlocks) hname fun name _ => ?_
  have hbound := hname.trans (retaining_bindName name (.argument position) _).toSameBlocks
  refine state_bind (R := f.SameBlocks) hbound fun _ _ => ?_
  have hvalue := hbound.trans (retaining_pushValue ⟨.argument position, some ty, name⟩ _).toSameBlocks
  exact state_bind (R := f.SameBlocks) hvalue fun _ _ => ⟨hvalue.blocks, hvalue.layout⟩

/-- Making the arguments touches no block and no layout. -/
theorem pushArguments_sameBlocks (tys : List LoweredType) : ∀ (position : Nat) (f : Function),
    f.SameBlocks (pushArguments position tys f).state := by
  induction tys with
  | nil => exact fun _ _ => ⟨rfl, rfl⟩
  | cons ty tys ih =>
    intro position f
    have hpush := pushArgument_sameBlocks position ty f
    exact state_bind (R := f.SameBlocks) hpush fun _ _ => hpush.trans (ih (position + 1) _)

/-- A definition starts without blocks. -/
theorem handlesValid_definition (name : String) (arguments : List LoweredType) (returnType : LoweredType) :
    (definition name arguments returnType).state.HandlesValid := by
  obtain ⟨hblocks, hlayout⟩ :=
    pushArguments_sameBlocks arguments 0 { declaration name arguments returnType with layout := some #[] }
  constructor
  · intro b hb
    rw [blockIds, definition, hlayout] at hb
    cases hb
  · intro b x i hx
    rw [block?, definition, hblocks] at hx
    cases hx

/-- **The handles of a function stay valid exactly as long as no request is carried out that the function does not
admit.**  Refused requests do no harm. -/
theorem handlesValid_iff_admits (name : String) (arguments : List LoweredType) (returnType : LoweredType)
    (requests : List Request) :
    let made := (definition name arguments returnType).state
    let after (n : Nat) := (Request.performAll (requests.take n) made).state
    (∀ n, (after n).HandlesValid) ↔
      ∀ n r, requests[n]? = some r → (r.perform (after n)).result = .ok () → (after n).Admits r := by
  intro made after
  have hnext : ∀ {n r}, requests[n]? = some r → after (n + 1) = (r.perform (after n)).state :=
    fun hr => performAll_take_succ hr made
  constructor
  · intro hvalid n r hr hok
    have hvalid' := hvalid (n + 1)
    rw [hnext hr] at hvalid'
    exact (perform_valid_iff (hvalid n) ⟨hok, rfl⟩).1 hvalid'
  · intro hadmits n
    induction n with
    | zero => exact handlesValid_definition name arguments returnType
    | succ n ih =>
      cases hr : requests[n]? with
      | none =>
        -- past the end of the run nothing changes any more
        have hsame : after (n + 1) = after n := by
          show (Request.performAll (requests.take (n + 1)) made).state = _
          rw [List.take_add_one, hr, Option.toList_none, List.append_nil]
        rw [hsame]
        exact ih
      | some r =>
        rw [hnext hr]
        cases hres : (r.perform (after n)).result with
        | error e => exact (refuses_perform r (after n) e _ ⟨hres, rfl⟩).valid ih
        | ok a => exact (perform_valid_iff ih ⟨hres, rfl⟩).2 (hadmits n r hr hres)

end Function

namespace Sample

/-- A block is placed that was never made. -/
def strayPlacement : List Request := [.block, .place ⟨7⟩]

/-- A block ends with a return that was never made. -/
def strayReturn : List Request := [.block, .leave ⟨0⟩ (.give ⟨5⟩)]

/-- A function without a result returns a constant, which is said to be of no type. -/
def strayOperand : List Request :=
  [.block, .constant (.bool true) .nil, .give (.empty "sample" {}) ⟨0⟩ (some ⟨2⟩)]

/-- Each of these runs leaves a handle that is not valid. -/
theorem stray_handles :
    let made := (Function.definition "f" [] .nil).state
    ¬ (Request.performAll strayPlacement made).state.HandlesValid ∧
      ¬ (Request.performAll strayReturn made).state.HandlesValid ∧
      ¬ (Request.performAll strayOperand made).state.HandlesValid := by
  refine ⟨fun h => ?_, fun h => ?_, fun h => ?_⟩
  · have hplaced := h.placed ⟨7⟩ (by decide +kernel)
    revert hplaced
    decide +kernel
  · obtain ⟨value, result, hi, -⟩ := h.returns (b := ⟨0⟩) (i := ⟨5⟩) rfl rfl
    cases hi
  · obtain ⟨value, result, hi, hnil, -⟩ := h.returns (b := ⟨0⟩) (i := ⟨0⟩) rfl rfl
    cases hi
    cases hnil.2 rfl

end Sample

end BlockForm
