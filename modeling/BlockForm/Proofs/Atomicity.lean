import BlockForm.Proofs.Representation
import BlockForm.Proofs.ControlFlow

/-!
# BlockForm.Proofs.Atomicity — a request is carried out whole or not at all

A request to the builder makes its checks and its changes in turn: a label is counted and registered before its value
is pushed, an instruction is made before its block is opened again.  On a function whose tables are in order and have
room, no check that comes after the first change can fail.  So a refused request leaves the function as it was, and one
that is carried out only adds: to the tables at their end, and to one open block.
-/

namespace BlockForm

/-! ## Outcomes that undo themselves -/

/-- An outcome that is a failure leaves the state `s`. -/
def Outcome.Restores {σ α : Type} (o : Outcome σ α) (s : σ) : Prop := ∀ e, o.result = .error e → o.state = s

namespace Action

variable {σ α β : Type} {s t : σ}

theorem restores_of_gives {x : Action σ α} {a : α} (h : x.Gives t a s) (r : σ) : (x t).Restores r := by
  intro e he
  rw [h.1] at he
  cases he

theorem restores_pure (a : α) : ((pure a : Action σ α) t).Restores s := restores_of_gives (gives_pure.2 ⟨rfl, rfl⟩) s

theorem restores_fail (e : Error) : ((fail e : Action σ α) s).Restores s := fun _ _ => rfl

theorem restores_fault (e : Fault) : ((fault e : Action σ α) s).Restores s := fun _ _ => rfl

/-- Two steps undo themselves if the first does and, where the first has made its change, the second goes back all the
way. -/
theorem restores_bind {x : Action σ α} {k : α → Action σ β} (hx : (x t).Restores s)
    (hk : ∀ a t', x.Gives t a t' → (k a t').Restores s) : ((x >>= k) t).Restores s := by
  intro e he
  rcases fails_bind.1 ⟨he, rfl⟩ with ⟨hfail, hstate⟩ | ⟨a, t', hgives, hfail, hstate⟩
  · exact hstate.symm.trans (hx e hfail)
  · exact hstate.symm.trans (hk a t' hgives e hfail)

/-- A step that undoes itself has made its change or none. -/
theorem state_of_restores {x : Action σ α} (h : (x s).Restores s) :
    (x s).state = s ∨ ∃ a, x.Gives s a (x s).state := by
  cases hr : (x s).result with
  | error e => exact Or.inl (h e hr)
  | ok a => exact Or.inr ⟨a, hr, rfl⟩

theorem restores_get_bind {k : σ → Action σ α} (h : (k t t).Restores s) : ((get >>= k) t).Restores s := h

theorem restores_check_bind {r : Except Fault α} {k : α → Action σ β}
    (h : ∀ a, r = .ok a → (k a s).Restores s) : ((check r >>= k) s).Restores s := by
  refine restores_bind ?_ ?_
  · cases r with
    | error e => exact restores_fault e
    | ok a => exact restores_pure a
  · intro a t' hgives
    obtain ⟨hr, rfl⟩ := gives_check.1 hgives
    exact h a hr

theorem restores_handle_bind {kind : HandleKind} {n : Nat} {k : Handle kind → Action σ β}
    (h : n < Handle.limit → (k ⟨n⟩ s).Restores s) : ((handle kind n >>= k) s).Restores s := by
  refine restores_bind ?_ ?_
  · unfold handle
    split
    · exact restores_pure _
    · exact restores_fail _
  · intro a t' hgives
    obtain ⟨hn, rfl, rfl⟩ := gives_handle.1 hgives
    exact h hn

/-! What a step gives may be dropped. -/

theorem restores_ignore {x : Action σ α} (h : (x s).Restores s) : ((x >>= fun _ => pure ()) s).Restores s :=
  restores_bind h fun _ _ _ => restores_pure ()

theorem state_ignore (x : Action σ α) (s : σ) : ((x >>= fun _ => pure ()) s).state = (x s).state := by
  show (Action.bind x (fun _ => Action.pure ()) s).state = (x s).state
  unfold Action.bind
  rcases x s with ⟨_ | a, t, log⟩ <;> rfl

theorem gives_ignore {x : Action σ α} {a : Unit} : Gives (x >>= fun _ => pure ()) s a t ↔ ∃ b, x.Gives s b t := by
  simp only [gives_bind, gives_pure]
  constructor
  · rintro ⟨b, t', h, -, rfl⟩
    exact ⟨b, h⟩
  · rintro ⟨b, h⟩
    exact ⟨b, t, h, trivial, rfl⟩

end Action

open Action

/-- What may become of a block: nothing, the given instruction at its end, or an exit. -/
inductive Block.Continues (b : Block) (i : InstructionId) : Block → Prop where
  | same : Continues b i b
  | push : Continues b i { b with instructions := b.instructions.push i }
  | leave (e : Exit) : Continues b i { b with exit := some e }

namespace Function

variable {f g : Function}

/-! ## Tables in order -/

/-- The representation invariant: the name table holds the objects of the function, and only operands are typed. -/
structure Intact (f : Function) : Prop extends Registered f where
  /-- A label and the absent value have no type. -/
  operand : ∀ {v x}, f.value? v = some x → x.ty.isSome → x.IsOperand

/-- The values of `g` are those of `f` and others of which only operands are typed. -/
theorem Intact.of_registered (hf : f.Intact) (hg : g.Registered)
    (hnew : ∀ {v x}, g.value? v = some x → f.value? v = some x ∨ (x.ty.isSome → x.IsOperand)) : g.Intact := by
  refine ⟨hg, fun hx ht => ?_⟩
  rcases hnew hx with hx | ho
  · exact hf.operand hx ht
  · exact ho ht

/-- One more value at the end of the table. -/
theorem value?_eq_some_of_next {v : ValueId} {x y : Value}
    (h : (if v = f.nextValue then some x else f.value? v) = some y) : f.value? v = some y ∨ y = x := by
  by_cases hv : v = f.nextValue
  · rw [if_pos hv] at h
    exact Or.inr (Option.some.inj h).symm
  · rw [if_neg hv] at h
    exact Or.inl h

theorem value?_eq_some_of_withInstruction {v : ValueId} {y : Value} {op : Operation} {ty : Option LoweredType}
    (h : (f.withInstruction op ty).value? v = some y) :
    f.value? v = some y ∨ y = ⟨.result f.nextInstruction, ty, f.variableName⟩ := by
  rw [value?_withInstruction] at h
  split at h
  · exact Or.inr (Option.some.inj h).symm
  · exact Or.inl h

/-- **Every change keeps the tables in order.** -/
theorem Change.intact (h : f.Change g) (hf : f.Intact) : g.Intact := by
  refine hf.of_registered (h.registered hf.toRegistered) ?_
  intro v y hy
  cases h with
  | none => exact Or.inl hy
  | constant c e =>
    rw [value?_withValue] at hy
    rcases value?_eq_some_of_next hy with hy | rfl
    · exact Or.inl hy
    · exact Or.inr fun _ => ⟨nofun, nofun⟩
  | literal id l =>
    have hy' : (f.withValue ⟨.literal id l.content, some l.ty, l.name⟩).value? v = some y := hy
    rw [value?_withValue] at hy'
    rcases value?_eq_some_of_next hy' with hy | rfl
    · exact Or.inl hy
    · exact Or.inr fun _ => ⟨nofun, nofun⟩
  | label =>
    rw [value?_withLabel] at hy
    rcases value?_eq_some_of_next hy with hy | rfl
    · exact Or.inl hy
    · exact Or.inr nofun
  | place => exact Or.inl hy
  | emit =>
    rcases value?_eq_some_of_withInstruction hy with hy | rfl
    · exact Or.inl hy
    · exact Or.inr fun _ => ⟨nofun, nofun⟩
  | leave => exact Or.inl hy
  | give => exact Or.inl hy

/-- A definition with room for its arguments starts with its tables in order. -/
theorem definition_intact {name : String} {arguments : List LoweredType} {returnType : LoweredType}
    (hroom : (definition name arguments returnType).state.values.size < Handle.limit) :
    (definition name arguments returnType).state.Intact := by
  obtain ⟨f, hmade, hf, -, -⟩ := definition_argumentsFirst hroom
  have hfresh := (fresh_definition (by rw [hmade])).1
  rw [hmade] at hfresh ⊢
  exact ⟨hf, hfresh.coherent.operand⟩

/-- **Requests keep the tables in order**, the refused ones included. -/
theorem performAll_intact (rs : List Request) : ∀ {f : Function}, f.Intact →
    (Request.performAll rs f).state.values.size < Handle.limit → (Request.performAll rs f).state.Intact := by
  induction rs with
  | nil => exact fun hf _ => hf
  | cons r rs ih =>
    intro f hf hroom
    have hroom₁ : f.values.size < Handle.limit := Nat.lt_of_le_of_lt (widens_performAll (r :: rs) f) hroom
    rw [performAll_cons] at hroom ⊢
    exact ih ((perform_tidy hf.toRegistered hroom₁ r).change.intact hf) hroom

/-! ## A refused request -/

theorem newBlock_restores (hf : f.Registered) (hroom : f.values.size < Handle.limit) : (newBlock f).Restores f := by
  by_cases hd : f.isDeclaration
  · refine restores_get_bind ?_
    rw [if_pos hd]
    exact restores_fault _
  by_cases hb : f.blocks.size < Handle.limit
  · rw [newBlock_run hf (by simpa using hd) hb hroom]
    exact nofun
  · refine restores_get_bind ?_
    rw [if_neg hd]
    exact restores_handle_bind fun h => absurd h hb

theorem appendBlock_restores (b : BlockId) : (appendBlock b f).Restores f := by
  refine restores_get_bind ?_
  cases hl : f.layout with
  | none => exact restores_fault _
  | some l =>
    by_cases hb : l.contains b
    · simp only [hb, if_true]
      exact restores_fault _
    · simp only [hb]
      exact nofun

theorem pushValue_restores (x : Value) : (pushValue x f).Restores f :=
  restores_get_bind (restores_handle_bind fun _ => nofun)

theorem literal_restores (id : GlobalId) (l : Global) : (literal id l f).Restores f := by
  refine restores_get_bind ?_
  cases hl : f.literals.lookup id with
  | some v => exact restores_pure v
  | none => exact restores_bind (pushValue_restores _) fun _ _ _ => nofun

theorem newInstruction_restores (hf : f.Registered) (hroom : f.values.size < Handle.limit) (op : Operation)
    (ty : Option LoweredType) : (newInstruction op ty f).Restores f := by
  by_cases hi : f.instructions.size < Handle.limit
  · rw [newInstruction_run hf hi hroom]
    exact nofun
  · rw [newInstruction_full hi]
    exact fun _ _ => rfl

theorem pushInstruction_restores (hf : f.Registered) (hroom : f.values.size < Handle.limit) (u : CompilationUnit)
    (b : BlockId) (op : Operation) : (pushInstruction u b op f).Restores f := by
  unfold pushInstruction
  by_cases hop : op.isTerminator
  · rw [if_pos hop]
    exact restores_fault _
  rw [if_neg hop]
  refine restores_get_bind (restores_check_bind fun x hx => restores_check_bind fun ty _ => ?_)
  obtain ⟨hb, hopen⟩ := openBlock_eq_ok.1 hx
  refine restores_bind (newInstruction_restores hf hroom op ty) fun id g hnew => ?_
  obtain ⟨-, -, rfl, -⟩ := newInstruction_gives hnew
  -- the block was open before the instruction was made, and making it touches no block
  have hb' : (f.withInstruction op ty).block? b = some x := by rw [block?_withInstruction, hb]
  refine restores_get_bind (restores_bind nofun fun _ g' hreport => ?_)
  obtain rfl := gives_report.1 hreport
  refine restores_bind ?_ fun _ _ _ => restores_pure _
  rw [updateBlock_run hb' hopen]
  exact nofun

theorem setExit_restores (b : BlockId) (e : Exit) : (setExit b e f).Restores f := by
  refine restores_get_bind (restores_check_bind fun _ _ => restores_get_bind (restores_check_bind fun x hx => ?_))
  exact nofun

theorem setReturn_restores (hf : f.Registered) (hroom : f.values.size < Handle.limit) (u : CompilationUnit)
    (b : BlockId) (value : Option ValueId) : (setReturn u b value f).Restores f := by
  refine restores_get_bind (restores_check_bind fun x hx => restores_check_bind fun ty _ => ?_)
  obtain ⟨hb, hopen⟩ := openBlock_eq_ok.1 hx
  refine restores_bind (newInstruction_restores hf hroom _ none) fun id g hnew => ?_
  obtain ⟨-, -, rfl, -⟩ := newInstruction_gives hnew
  have hb' : (f.withInstruction (.give value) none).block? b = some x := by rw [block?_withInstruction, hb]
  exact restores_of_gives (a := ()) (setExit_gives.2 ⟨rfl, x, ⟨hb', hopen⟩, rfl⟩) f

theorem perform_restores (hf : f.Registered) (hroom : f.values.size < Handle.limit) (r : Request) :
    (r.perform f).Restores f := by
  cases r with
  | block => exact restores_ignore (newBlock_restores hf hroom)
  | place b => exact appendBlock_restores b
  | constant c e => exact restores_ignore (pushValue_restores _)
  | literal id l => exact restores_ignore (literal_restores id l)
  | instruction u b op => exact restores_ignore (pushInstruction_restores hf hroom u b op)
  | leave b e => exact setExit_restores b e
  | give u b value => exact setReturn_restores hf hroom u b value

/-! ## A request that is carried out -/

/-- `g` is `f` after one addition. -/
structure Appends (f g : Function) : Prop where
  /-- The tables and the layout grow at their end. -/
  values : f.values.toList <+: g.values.toList
  instructions : f.instructions.toList <+: g.instructions.toList
  layout : f.blockIds <+: g.blockIds
  /-- What an added instruction reads was there before and has a type: it is neither absent nor a label. -/
  operands : ∀ {i ins}, g.instruction? i = some ins → f.instruction? i = none → ∀ v ∈ ins.operation.operands,
    ∃ x, f.value? v = some x ∧ x.ty.isSome ∧ x.IsOperand
  /-- A block that has its exit is left alone. -/
  closed : ∀ {b x}, f.block? b = some x → x.exit.isSome → g.block? b = some x
  opened : ∀ {b x}, f.block? b = some x → x.exit = none →
    ∃ y, g.block? b = some y ∧ x.Continues f.nextInstruction y

/-- A change goes on with at most one of the blocks. -/
theorem Change.continues (h : f.Change g) {b : BlockId} {x : Block} (hx : f.block? b = some x) :
    ∃ y, g.block? b = some y ∧ x.Continues f.nextInstruction y := by
  cases h with
  | none => exact ⟨x, hx, .same⟩
  | constant => exact ⟨x, hx, .same⟩
  | literal => exact ⟨x, hx, .same⟩
  | label => exact ⟨x, block?_withLabel hx, .same⟩
  | place => exact ⟨x, hx, .same⟩
  | @emit c z hz hopen op ty =>
    rw [block?_withEmitted hz]
    by_cases hbc : b = c
    · subst hbc
      obtain rfl := Option.some.inj (hx.symm.trans hz)
      exact ⟨_, if_pos rfl, .push⟩
    · exact ⟨x, by rw [if_neg hbc, hx], .same⟩
  | @leave c z hz hopen e =>
    rw [block?_withExit hz]
    by_cases hbc : b = c
    · subst hbc
      obtain rfl := Option.some.inj (hx.symm.trans hz)
      exact ⟨_, if_pos rfl, .leave e⟩
    · exact ⟨x, by rw [if_neg hbc, hx], .same⟩
  | @give c z hz hopen value =>
    rw [block?_withReturn hz]
    by_cases hbc : b = c
    · subst hbc
      obtain rfl := Option.some.inj (hx.symm.trans hz)
      exact ⟨_, if_pos rfl, .leave _⟩
    · exact ⟨x, by rw [if_neg hbc, hx], .same⟩

/-- The instructions of `g` that are not in `f` read values of `f`. -/
def ReadsOld (f g : Function) : Prop :=
  ∀ i ins, g.instruction? i = some ins → f.instruction? i = none → ∀ v ∈ ins.operation.operands,
    ∃ x, f.value? v = some x ∧ x.ty.isSome

theorem readsOld_of_instructions (h : g.instructions = f.instructions) : f.ReadsOld g := by
  intro i ins hi hnone
  have hi' : f.instruction? i = some ins := by rw [instruction?, ← h]; exact hi
  rw [hnone] at hi'
  cases hi'

theorem readsOld_withInstruction {u : CompilationUnit} {op : Operation} {ty : Option LoweredType}
    (hty : f.resultType u op = .ok ty) (ty' : Option LoweredType)
    (h : g.instructions = (f.withInstruction op ty').instructions) : f.ReadsOld g := by
  intro i ins hi hnone
  have hi' : (f.withInstruction op ty').instruction? i = some ins := by rw [instruction?, ← h]; exact hi
  rw [instruction?_withInstruction] at hi'
  by_cases hnext : i = f.nextInstruction
  · rw [if_pos hnext] at hi'
    cases hi'
    exact Site.value?_of_types (types_of_resultType hty)
  · rw [if_neg hnext, hnone] at hi'
    cases hi'

theorem perform_readsOld {r : Request} {a : Unit} (h : Gives r.perform f a g) : f.ReadsOld g := by
  cases r with
  | block =>
    obtain ⟨b, h⟩ := gives_ignore.1 h
    obtain ⟨-, -, -, -, -, rfl⟩ := newBlock_gives h
    exact readsOld_of_instructions rfl
  | place b =>
    obtain ⟨l, -, -, rfl⟩ := appendBlock_gives h
    exact readsOld_of_instructions rfl
  | constant c e =>
    obtain ⟨v, h⟩ := gives_ignore.1 h
    obtain ⟨-, -, rfl⟩ := constant_gives.1 h
    exact readsOld_of_instructions rfl
  | literal id l =>
    obtain ⟨v, h⟩ := gives_ignore.1 h
    rcases literal_gives h with ⟨-, rfl⟩ | ⟨-, -, -, rfl⟩
    · exact readsOld_of_instructions rfl
    · exact readsOld_of_instructions rfl
  | instruction u b op =>
    obtain ⟨v, h⟩ := gives_ignore.1 h
    obtain ⟨x, ty, -, -, -, hty, -, -, -, rfl⟩ := pushInstruction_gives h
    exact readsOld_withInstruction hty ty rfl
  | leave b e =>
    obtain ⟨-, x, -, rfl⟩ := setExit_gives.1 h
    exact readsOld_of_instructions rfl
  | give u b value =>
    obtain ⟨x, ty, -, -, hty, -, rfl⟩ := setReturn_gives h
    exact readsOld_withInstruction hty none rfl

theorem perform_appends (hf : f.Intact) (hroom : f.values.size < Handle.limit) {r : Request} {a : Unit}
    (h : Gives r.perform f a g) : f.Appends g := by
  have hchange : f.Change g := h.2 ▸ (perform_tidy hf.toRegistered hroom r).change
  have hgrows := hchange.grows
  refine ⟨hgrows.values, hgrows.instructions, hgrows.blockIds, ?_, hgrows.closed_block,
    fun hx _ => hchange.continues hx⟩
  intro i ins hi hnone v hv
  obtain ⟨x, hx, ht⟩ := perform_readsOld h i ins hi hnone v hv
  exact ⟨x, hx, ht, hf.operand hx ht⟩

/-- **A request is carried out whole or not at all.**  On a function whose tables are in order and have room, a refused
request leaves everything as it was; one that is carried out only appends, and leaves the tables in order. -/
theorem perform_atomic {f : Function} (hf : f.Intact) (hroom : f.values.size < Handle.limit) (r : Request) :
    (∀ e, (r.perform f).result = .error e → (r.perform f).state = f) ∧
      ((r.perform f).result = .ok () → f.Appends (r.perform f).state ∧ (r.perform f).state.Intact) := by
  refine ⟨perform_restores hf.toRegistered hroom r, fun hok => ?_⟩
  exact ⟨perform_appends hf hroom ⟨hok, rfl⟩, (perform_tidy hf.toRegistered hroom r).change.intact hf⟩

end Function

namespace Sample

/-- A function with a slot for its argument, in the middle of its entry block. -/
def draft : Function :=
  (Request.performAll (requests.take 7) (Function.definition "f" [.elementary .i32] .nil).state).state

/-- The request to store a value in the slot of `draft`. -/
def store (value : ValueId) : Request := .instruction (.empty "sample" {}) ⟨0⟩ (.write ⟨4⟩ value)

/-- The argument can be stored; a label and the truth value cannot, and leave nothing behind. -/
theorem draft_atomic :
    draft.Intact ∧ draft.values.size < Handle.limit ∧
      (((store ⟨1⟩).perform draft).result.isOk = true ∧ draft.Appends ((store ⟨1⟩).perform draft).state) ∧
      ∀ v ∈ [⟨2⟩, ⟨3⟩], ((store v).perform draft).result.isOk = false ∧ ((store v).perform draft).state = draft := by
  have hroom : draft.values.size < Handle.limit := by decide +kernel
  have hintact : draft.Intact :=
    Function.performAll_intact _ (Function.definition_intact (by decide +kernel)) hroom
  have hstored : ((store ⟨1⟩).perform draft).result.isOk = true := by decide +kernel
  have hrefused : ∀ v ∈ [⟨2⟩, ⟨3⟩], ((store v).perform draft).result.isOk = false := by decide +kernel
  refine ⟨hintact, hroom, ⟨hstored, ?_⟩, fun v hv => ⟨hrefused v hv, ?_⟩⟩
  · have hatomic := Function.perform_atomic hintact hroom (store ⟨1⟩)
    cases hr : ((store ⟨1⟩).perform draft).result with
    | ok a => exact (hatomic.2 hr).1
    | error e => simp [hr, Except.isOk, Except.toBool] at hstored
  · have hatomic := Function.perform_atomic hintact hroom (store v)
    have hv' := hrefused v hv
    cases hr : ((store v).perform draft).result with
    | ok a => simp [hr, Except.isOk, Except.toBool] at hv'
    | error e => exact hatomic.1 e hr

end Sample

end BlockForm
