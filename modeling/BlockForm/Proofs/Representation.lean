import BlockForm.Proofs.Registry
import BlockForm.Proofs.Typedefs

/-!
# BlockForm.Proofs.Representation — the tables of a function stay in step

A function is built by requests, each of which may be refused.  However they are mixed, and whatever was refused in
between, the values, instructions, blocks, counters and names of the function fit together (`Function.Represented`), as
long as the table of values is not full.  A refused request changes nothing at all: it is one of the changes of
`Function.Change`.
-/

namespace BlockForm

open Action

/-- A request to the builder of a function, with the unit it is checked against. -/
inductive Request where
  | block
  | place (block : BlockId)
  | constant (c : Constant) (e : Elementary)
  | literal (id : GlobalId) (l : Global)
  | instruction (unit : CompilationUnit) (block : BlockId) (operation : Operation)
  | leave (block : BlockId) (exit : Exit)
  | give (unit : CompilationUnit) (block : BlockId) (value : Option ValueId)

namespace Request

/-- What the builder does on a request. -/
def perform : Request → Building Unit
  | block => do let _ ← Function.newBlock
  | place b => Function.appendBlock b
  | constant c e => do let _ ← Function.constant c e
  | literal id l => do let _ ← Function.literal id l
  | instruction u b op => do let _ ← Function.pushInstruction u b op
  | leave b e => Function.setExit b e
  | give u b value => Function.setReturn u b value

/-- Requests one after another, the refused ones included. -/
def performAll : List Request → Building Unit
  | [] => pure ()
  | r :: rs => do
    (fun f => { r.perform f with result := .ok () } : Building Unit)
    performAll rs

end Request

namespace Function

variable {f g : Function} {α β : Type}

/-! ## One request -/

/-- The outcome of a step is one change, and no name was found taken. -/
structure Tidy (f : Function) (o : Outcome Function α) : Prop where
  change : f.Change o.state
  clash : ∀ n a b, .nameClash n a b ∉ o.log

theorem tidy_pure (a : α) : f.Tidy ((pure a : Building α) f) := ⟨.none, fun _ _ _ => List.not_mem_nil⟩

theorem tidy_fault (e : Fault) : f.Tidy ((Action.fault e : Building α) f) :=
  ⟨.none, fun _ _ _ h => by simp [Action.fault] at h⟩

theorem tidy_check_bind {r : Except Fault α} {k : α → Building β} (h : ∀ a, r = .ok a → f.Tidy (k a f)) :
    f.Tidy ((Action.check r >>= k) f) := by
  cases r with
  | error e => exact tidy_fault e
  | ok a =>
    have := h a rfl
    exact ⟨this.change, this.clash⟩

theorem Tidy.ignore {x : Building α} (h : f.Tidy (x f)) : f.Tidy ((x >>= fun _ => pure ()) f) := by
  obtain ⟨hc, hl⟩ := h
  show f.Tidy (Action.bind x (fun _ => pure ()) f)
  unfold Action.bind
  rcases hx : x f with ⟨e | a, g, log⟩
  · rw [hx] at hc hl
    exact ⟨hc, hl⟩
  · rw [hx] at hc hl
    exact ⟨hc, by simpa [Pure.pure, Action.pure] using hl⟩

theorem tidy_get_bind {k : Function → Building α} (h : f.Tidy (k f f)) : f.Tidy ((Action.get >>= k) f) :=
  ⟨h.change, h.clash⟩

/-- What a quiet step has done is left to the next one. -/
theorem tidy_bind_of_run {x : Building α} {k : α → Building β} {a : α} (hx : x f = ⟨.ok a, g, []⟩)
    (hk : f.Tidy (k a g)) : f.Tidy ((x >>= k) f) := by
  show f.Tidy (Action.bind x k f)
  rw [Action.bind, hx]
  exact ⟨hk.change, by simpa using hk.clash⟩

/-- A step that finds a table full ends the request. -/
theorem tidy_bind_of_full {x : Building α} {k : α → Building β} {e : Error} (hx : x f = ⟨.error e, f, []⟩) :
    f.Tidy ((x >>= k) f) := by
  show f.Tidy (Action.bind x k f)
  rw [Action.bind, hx]
  exact ⟨.none, fun _ _ _ => List.not_mem_nil⟩

theorem pushValue_run (hroom : f.values.size < Handle.limit) (x : Value) :
    pushValue x f = ⟨.ok f.nextValue, f.withValue x, []⟩ := by
  simp [pushValue, Bind.bind, Action.bind, Action.get, Action.handle, hroom, Action.pure, Action.modify, Pure.pure,
    nextValue, withValue]

theorem handle_full {kind : HandleKind} {n : Nat} (h : ¬ n < Handle.limit) :
    (Action.handle kind n : Building (Handle kind)) f = ⟨.error (.internal (.tooManyObjects kind)), f, []⟩ := by
  simp [Action.handle, h, Action.fail]

theorem newBlock_run (hf : f.Registered) (hd : f.isDeclaration = false) (hb : f.blocks.size < Handle.limit)
    (hroom : f.values.size < Handle.limit) : newBlock f = ⟨.ok f.nextBlock, f.withLabel, []⟩ := by
  have hfree : f.names.get? ("%label_" ++ f.nextLabel.repr) = none := hf.labelName_free
  simp [newBlock, Bind.bind, Action.bind, Action.get, hd, Action.handle, hb, Action.pure, freshLabel, bindName,
    NameTable.bind, hfree, pushValue_run, hroom, Action.modify, Pure.pure, withLabel, withValue, labelName,
    nextValue, nextBlock]

theorem newInstruction_run (hf : f.Registered) (hi : f.instructions.size < Handle.limit)
    (hroom : f.values.size < Handle.limit) (op : Operation) (ty : Option LoweredType) :
    newInstruction op ty f = ⟨.ok f.nextInstruction, f.withInstruction op ty, []⟩ := by
  have hfree : f.names.get? ("$" ++ f.nextVariable.repr) = none := hf.variableName_free
  cases ty with
  | none =>
    simp [newInstruction, Bind.bind, Action.bind, Action.get, Action.handle, hi, Action.pure, Action.modify, Pure.pure,
      withInstruction, nextInstruction]
  | some ty =>
    simp [newInstruction, Bind.bind, Action.bind, Action.get, Action.handle, hi, Action.pure, freshVariable, bindName,
      NameTable.bind, hfree, pushValue_run, hroom, Action.modify, Pure.pure, withInstruction, withValue, variableName,
      nextValue, nextInstruction]

theorem newInstruction_full (hi : ¬ f.instructions.size < Handle.limit) (op : Operation) (ty : Option LoweredType) :
    newInstruction op ty f = ⟨.error (.internal (.tooManyObjects .instruction)), f, []⟩ := by
  simp [newInstruction, Bind.bind, Action.bind, Action.get, Action.handle, hi, Action.fail]

theorem updateBlock_run {b : BlockId} {x : Block} (hx : f.block? b = some x) (hopen : x.exit = none)
    (change : Block → Block) : updateBlock b change f = ⟨.ok (), f.put b (change x), []⟩ := by
  have hcheck : f.openBlock b = .ok x := openBlock_eq_ok.2 ⟨hx, hopen⟩
  simp [updateBlock, Bind.bind, Action.bind, Action.get, Action.check, hcheck, Action.pure, Action.set, put]

theorem newBlock_tidy (hf : f.Registered) (hroom : f.values.size < Handle.limit) : f.Tidy (newBlock f) := by
  by_cases hd : f.isDeclaration
  · refine tidy_get_bind ?_
    rw [if_pos hd]
    exact tidy_fault _
  by_cases hb : f.blocks.size < Handle.limit
  · rw [newBlock_run hf (by simpa using hd) hb hroom]
    exact ⟨.label, fun _ _ _ => List.not_mem_nil⟩
  · refine tidy_get_bind ?_
    rw [if_neg hd]
    exact tidy_bind_of_full (handle_full hb)

theorem appendBlock_tidy (b : BlockId) : f.Tidy (appendBlock b f) := by
  refine tidy_get_bind ?_
  cases hl : f.layout with
  | none => exact tidy_fault _
  | some l =>
    by_cases hb : l.contains b
    · simp only [hb, if_true]
      exact tidy_fault _
    · simp only [hb]
      have hset : { f with layout := some (l.push b) } = f.place b := by rw [place, hl]; rfl
      have hnot : b ∉ f.blockIds := by simpa [blockIds, hl] using hb
      refine ⟨?_, fun _ _ _ => List.not_mem_nil⟩
      show f.Change { f with layout := some (l.push b) }
      rw [hset]
      exact .place hnot

theorem constant_tidy (hroom : f.values.size < Handle.limit) (c : Constant) (e : Elementary) :
    f.Tidy (constant c e f) := by
  rw [constant, pushValue_run hroom]
  exact ⟨.constant c e, fun _ _ _ => List.not_mem_nil⟩

theorem literal_tidy (hroom : f.values.size < Handle.limit) (id : GlobalId) (l : Global) :
    f.Tidy (literal id l f) := by
  refine tidy_get_bind ?_
  cases hl : f.literals.lookup id with
  | some v => exact tidy_pure v
  | none =>
    refine tidy_bind_of_run (pushValue_run hroom _) ?_
    exact ⟨.literal id l, fun _ _ _ => List.not_mem_nil⟩

theorem pushInstruction_tidy (hf : f.Registered) (hroom : f.values.size < Handle.limit) (u : CompilationUnit)
    (b : BlockId) (op : Operation) : f.Tidy (pushInstruction u b op f) := by
  unfold pushInstruction
  by_cases hop : op.isTerminator
  · rw [if_pos hop]
    exact tidy_fault _
  rw [if_neg hop]
  refine tidy_get_bind (tidy_check_bind fun x hx => tidy_check_bind fun ty _ => ?_)
  obtain ⟨hb, hopen⟩ := openBlock_eq_ok.1 hx
  by_cases hi : f.instructions.size < Handle.limit
  · refine tidy_bind_of_run (newInstruction_run hf hi hroom op ty) ?_
    have hb' : (f.withInstruction op ty).block? b = some x := by rw [block?_withInstruction, hb]
    have hrun := updateBlock_run hb' hopen fun y => { y with instructions := y.instructions.push f.nextInstruction }
    refine ⟨?_, ?_⟩
    · simp only [Bind.bind, Action.bind, Action.get, Action.report, hrun, Pure.pure, Action.pure]
      exact .emit hb hopen op ty
    · simp [Bind.bind, Action.bind, Action.get, Action.report, hrun, Pure.pure, Action.pure]
  · exact tidy_bind_of_full (newInstruction_full hi op ty)

theorem setExit_tidy (b : BlockId) (e : Exit) : f.Tidy (setExit b e f) := by
  refine tidy_get_bind (tidy_check_bind fun _ _ => tidy_get_bind (tidy_check_bind fun x hx => ?_))
  obtain ⟨hb, hopen⟩ := openBlock_eq_ok.1 hx
  exact ⟨.leave hb hopen e, fun _ _ _ => List.not_mem_nil⟩

theorem setReturn_tidy (hf : f.Registered) (hroom : f.values.size < Handle.limit) (u : CompilationUnit)
    (b : BlockId) (value : Option ValueId) : f.Tidy (setReturn u b value f) := by
  refine tidy_get_bind (tidy_check_bind fun x hx => tidy_check_bind fun ty _ => ?_)
  obtain ⟨hb, hopen⟩ := openBlock_eq_ok.1 hx
  by_cases hi : f.instructions.size < Handle.limit
  · refine tidy_bind_of_run (newInstruction_run hf hi hroom (.give value) none) ?_
    have hb' : (f.withInstruction (.give value) none).block? b = some x := by rw [block?_withInstruction, hb]
    have hrun := updateBlock_run hb' hopen fun y => { y with exit := some (.give f.nextInstruction) }
    refine ⟨?_, ?_⟩
    · simp only [setExit, Bind.bind, Action.bind, Action.get, checkExit, Action.check, Action.pure, hrun]
      exact .give hb hopen value
    · simp [setExit, Bind.bind, Action.bind, Action.get, checkExit, Action.check, Action.pure, hrun]
  · exact tidy_bind_of_full (newInstruction_full hi _ _)

/-- **A request comes to one change or to none, and never to a name that is taken.** -/
theorem perform_tidy (hf : f.Registered) (hroom : f.values.size < Handle.limit) (r : Request) :
    f.Tidy (r.perform f) := by
  cases r with
  | block => exact (newBlock_tidy hf hroom).ignore
  | place b => exact appendBlock_tidy b
  | constant c e => exact (constant_tidy hroom c e).ignore
  | literal id l => exact (literal_tidy hroom id l).ignore
  | instruction u b op => exact (pushInstruction_tidy hf hroom u b op).ignore
  | leave b e => exact setExit_tidy b e
  | give u b value => exact setReturn_tidy hf hroom u b value

/-! ## The table of values never shrinks -/

/-- The step takes no value away, whether it succeeds or not. -/
def Widens (x : Building α) : Prop := ∀ f, f.values.size ≤ (x f).state.values.size

theorem widens_of_values {x : Building α} (h : ∀ f, (x f).state.values = f.values) : Widens x := fun f => by
  rw [h f]

theorem Widens.bind {x : Building α} {k : α → Building β} (hx : Widens x) (hk : ∀ a, Widens (k a)) :
    Widens (x >>= k) := fun f =>
  state_bind (R := fun g : Function => f.values.size ≤ g.values.size) (hx f) fun a _ => Nat.le_trans (hx f) (hk a _)

theorem widens_pure (a : α) : Widens (pure a) := widens_of_values fun _ => rfl

theorem widens_get_bind {k : Function → Building α} (hk : ∀ f, Widens (k f)) : Widens (Action.get >>= k) :=
  .bind (widens_of_values fun _ => rfl) hk

theorem widens_check (r : Except Fault α) : Widens (Action.check r) := widens_of_values fun f => by cases r <;> rfl

theorem widens_handle (kind : HandleKind) (n : Nat) : Widens (Action.handle kind n) := widens_of_values fun f => by
  unfold Action.handle
  split <;> rfl

theorem widens_fault (e : Fault) : Widens (Action.fault e : Building α) := widens_of_values fun _ => rfl

theorem widens_bindName (name : String) (o : Object) : Widens (bindName name o) := widens_of_values fun _ => rfl

theorem widens_pushValue (x : Value) : Widens (pushValue x) := by
  refine widens_get_bind fun f => .bind (widens_handle _ _) fun id => .bind ?_ fun _ => widens_pure _
  intro g
  simp [Action.modify]

theorem widens_updateBlock (b : BlockId) (change : Block → Block) : Widens (updateBlock b change) := by
  refine widens_of_values fun f => ?_
  cases h : f.openBlock b with
  | error e => simp [updateBlock, Bind.bind, Action.bind, Action.get, Action.check, h, Action.fault]
  | ok x => simp [updateBlock, Bind.bind, Action.bind, Action.get, Action.check, h, Action.pure, Action.set]

theorem widens_newInstruction (op : Operation) (ty : Option LoweredType) : Widens (newInstruction op ty) := by
  refine widens_get_bind fun f => .bind (widens_handle _ _) fun id => ?_
  have hlast : ∀ v, Widens (do
      Action.modify fun f => { f with instructions := f.instructions.push ⟨op, v⟩ }
      return id) := fun v => .bind (widens_of_values fun _ => rfl) fun _ => widens_pure _
  cases ty with
  | none => exact .bind (widens_pure _) hlast
  | some ty =>
    refine .bind (widens_of_values fun _ => rfl) fun name => ?_
    exact .bind (widens_bindName _ _) fun _ => .bind (widens_pushValue _) hlast

theorem widens_perform (r : Request) : Widens r.perform := by
  cases r with
  | block =>
    refine .bind (widens_get_bind fun f => ?_) fun _ => widens_pure _
    split
    · exact widens_fault _
    · refine .bind (widens_handle _ _) fun b => .bind (widens_of_values fun _ => rfl) fun id => ?_
      refine .bind (widens_bindName _ _) fun _ => .bind (widens_pushValue _) fun v => ?_
      exact .bind (widens_of_values fun _ => rfl) fun _ => widens_pure _
  | place b => exact fun f => (appendBlock_tidy b).change.grows.values_size_le
  | constant c e => exact .bind (widens_pushValue _) fun _ => widens_pure _
  | literal id l =>
    refine .bind (widens_get_bind fun f => ?_) fun _ => widens_pure _
    split
    · exact widens_pure _
    · refine .bind (widens_pushValue _) fun v => .bind (widens_of_values fun _ => rfl) fun _ => widens_pure _
  | instruction u b op =>
    refine .bind ?_ fun _ => widens_pure _
    unfold pushInstruction
    split
    · exact widens_fault _
    · refine widens_get_bind fun f => .bind (widens_check _) fun _ => .bind (widens_check _) fun ty => ?_
      refine .bind (widens_newInstruction _ _) fun id => widens_get_bind fun f => ?_
      refine .bind (widens_of_values fun _ => rfl) fun _ => .bind (widens_updateBlock _ _) fun _ => widens_pure _
  | leave b e => exact fun f => (setExit_tidy b e).change.grows.values_size_le
  | give u b value =>
    refine widens_get_bind fun f => .bind (widens_check _) fun _ => .bind (widens_check _) fun ty => ?_
    exact .bind (widens_newInstruction _ _) fun id f => (setExit_tidy b _).change.grows.values_size_le

/-- The tables of the function fit together. -/
structure Represented (f : Function) : Prop where
  /-- The first value is the absent one, and no other is. -/
  absent : ∀ {v}, (∃ x, f.value? v = some x ∧ x.kind = .nil) ↔ v = nilValue
  /-- Argument `i` is value `i + 1` with identifier `$i`. -/
  argument : ∀ {i ty}, f.arguments[i]? = some ty →
    f.value? ⟨i + 1⟩ = some ⟨.argument i, some ty, variableText i⟩
  argumentValue : ∀ {i}, f.argumentValue? i = if i < f.arguments.length then some ⟨i + 1⟩ else none
  /-- The values of arguments and the positions of values lead back to each other. -/
  argumentPosition : ∀ {i v}, f.argumentPosition? v = some i ↔ f.argumentValue? i = some v
  /-- A result is called `$k`, after the arguments and unlike any other result. -/
  result : ∀ {v x i}, f.value? v = some x → x.kind = .result i →
    (∃ k, f.arguments.length ≤ k ∧ x.id = variableText k) ∧
    ∀ {w y j}, f.value? w = some y → y.kind = .result j → y.id = x.id → w = v
  /-- An instruction with a result and its value point at each other. -/
  instruction : ∀ {i v}, (∃ x, f.value? v = some x ∧ x.kind = .result i) ↔
    v ≠ nilValue ∧ ∃ ins, f.instruction? i = some ins ∧ ins.value = v
  /-- The names are those of the arguments, the instructions with a result and the blocks, each under the
  identifier of its value and no other. -/
  names : ∀ {n o}, f.names.get? n = some o ↔ ∃ v, f.valueOf? o = some v ∧ (f.value? v).map Value.id = some n
  objects : ∀ {o v}, f.valueOf? o = some v → ∃ x, f.value? v = some x ∧ x.object? = some o
  /-- A block is found by the text and by the value of its label. -/
  block : ∀ {b x}, f.block? b = some x →
    f.blockNamed? (f.idText x.label) = some x ∧ f.labelTarget? x.label = some b
  layout : f.blockIds.Nodup

/-! ## The arguments -/

/-- The arguments made so far are the values after the absent one, called `$0`, `$1` and so on. -/
structure ArgumentsFirst (f : Function) (tys : List LoweredType) : Prop where
  count : f.argumentValues.size = tys.length
  value : ∀ {i ty}, tys[i]? = some ty →
    f.argumentValue? i = some ⟨i + 1⟩ ∧ f.value? ⟨i + 1⟩ = some ⟨.argument i, some ty, variableText i⟩

theorem ArgumentsFirst.grows {tys : List LoweredType} (h : f.ArgumentsFirst tys) (hg : f.Grows g) :
    g.ArgumentsFirst tys := by
  refine ⟨by rw [hg.argumentValues, h.count], fun hi => ?_⟩
  obtain ⟨hv, hx⟩ := h.value hi
  exact ⟨by rw [argumentValue?, hg.argumentValues]; exact hv, hg.value? hx⟩

theorem ArgumentsFirst.withArgument {tys : List LoweredType} (h : f.ArgumentsFirst tys)
    (hk : f.nextVariable = tys.length) (hv : f.values.size = tys.length + 1) (ty : LoweredType) :
    (f.withArgument tys.length ty).ArgumentsFirst (tys ++ [ty]) := by
  have hvalue : ∀ v, (f.withArgument tys.length ty).value? v =
      if v = f.nextValue then some ⟨.argument tys.length, some ty, f.variableName⟩ else f.value? v :=
    value?_withValue _
  have hcount := h.count
  refine ⟨by simp [Function.withArgument, hcount], ?_⟩
  intro i t hi
  by_cases hlt : i < tys.length
  · rw [List.getElem?_append_left hlt] at hi
    obtain ⟨ha, hx⟩ := h.value hi
    refine ⟨?_, ?_⟩
    · rw [argumentValue?, Function.withArgument, Array.getElem?_push, if_neg (by omega)]
      exact ha
    · rw [hvalue, if_neg, hx]
      intro heq
      have := congrArg Handle.index heq
      simp only [nextValue] at this
      omega
  · obtain ⟨hin, -⟩ := List.getElem?_eq_some_iff.1 hi
    obtain rfl : i = tys.length := by
      simp only [List.length_append, List.length_singleton] at hin
      omega
    obtain rfl : ty = t := by simpa using hi
    refine ⟨?_, ?_⟩
    · simp [argumentValue?, Function.withArgument, ← hcount, nextValue, hv]
    · rw [hvalue, if_pos (by simp [nextValue, hv])]
      simp [variableName, variableText, hk]

theorem pushArgument_run (hf : f.Registered) (hroom : f.values.size < Handle.limit) (position : Nat)
    (ty : LoweredType) : pushArgument position ty f = ⟨.ok (), f.withArgument position ty, []⟩ := by
  have hfree : f.names.get? ("$" ++ f.nextVariable.repr) = none := hf.variableName_free
  simp [pushArgument, Bind.bind, Action.bind, freshVariable, bindName, NameTable.bind, hfree, pushValue_run, hroom,
    Action.modify, Function.withArgument, withValue, variableName, nextValue]

theorem widens_pushArgument (position : Nat) (ty : LoweredType) : Widens (pushArgument position ty) := by
  refine .bind (widens_of_values fun _ => rfl) fun name => .bind (widens_bindName _ _) fun _ => ?_
  exact .bind (widens_pushValue _) fun v => widens_of_values fun _ => rfl

theorem widens_pushArguments (tys : List LoweredType) : ∀ position, Widens (pushArguments position tys) := by
  induction tys with
  | nil => exact fun _ => widens_pure ()
  | cons ty tys ih => exact fun position => .bind (widens_pushArgument _ _) fun _ => ih _

/-- All arguments are made if they have room. -/
theorem pushArguments_argumentsFirst (tys : List LoweredType) : ∀ {f : Function} {made : List LoweredType},
    f.Registered → f.ArgumentsFirst made → f.nextVariable = made.length → f.values.size = made.length + 1 →
    (pushArguments made.length tys f).state.values.size < Handle.limit →
    ∃ g, pushArguments made.length tys f = ⟨.ok (), g, []⟩ ∧ g.Registered ∧ g.ArgumentsFirst (made ++ tys) ∧
      g.arguments = f.arguments ∧ g.blockIds = f.blockIds := by
  induction tys with
  | nil =>
    intro f made hf hl hk hv hroom
    exact ⟨f, rfl, hf, by simpa using hl, rfl, rfl⟩
  | cons ty tys ih =>
    intro f made hf hl hk hv hroom
    have hroom₁ : f.values.size < Handle.limit :=
      Nat.lt_of_le_of_lt (widens_pushArguments (ty :: tys) made.length f) hroom
    have hrun := pushArgument_run hf hroom₁ made.length ty
    have hrest : pushArguments made.length (ty :: tys) f =
        pushArguments (made ++ [ty]).length tys (f.withArgument made.length ty) := by
      simp only [pushArguments, Bind.bind, Action.bind, hrun, List.nil_append, List.length_append,
        List.length_singleton]
    rw [hrest] at hroom ⊢
    have hf₁ : (f.withArgument made.length ty).Registered := by
      rw [← hl.count]
      exact hf.withArgument ty
    obtain ⟨g, hg, hgr, hgl, hga, hgb⟩ := ih hf₁ (hl.withArgument hk hv ty)
      (by simp [Function.withArgument, hk]) (by simp [Function.withArgument, withValue, hv]) hroom
    exact ⟨g, hg, hgr, by simpa using hgl, hga, hgb⟩

theorem registered_declaration (name : String) (arguments : List LoweredType) (returnType : LoweredType) :
    Registered { declaration name arguments returnType with layout := some #[] } := by
  have hnil : ∀ {v x}, Function.value? { declaration name arguments returnType with layout := some #[] } v = some x →
      v = nilValue ∧ x = .nil := by
    intro v x hx
    obtain ⟨hlt, hx⟩ := Array.getElem?_eq_some_iff.1 hx
    obtain ⟨_ | i⟩ := v
    · exact ⟨rfl, hx.symm⟩
    · simp [declaration] at hlt
  refine ⟨rfl, fun hx _ => (hnil hx).1, ?_, ?_, ?_⟩
  · intro o v
    constructor
    · intro h
      cases o <;> simp [valueOf?, argumentValue?, instruction?, block?, declaration] at h
    · rintro ⟨x, hx, hxo⟩
      rw [(hnil hx).2] at hxo
      cases hxo
  · intro n o
    constructor
    · intro h
      cases h
    · rintro ⟨v, x, hx, hxo, -⟩
      rw [(hnil hx).2] at hxo
      cases hxo
  · intro v x o hx hxo
    rw [(hnil hx).2] at hxo
    cases hxo

/-- A definition whose values have room is made, with its arguments in front. -/
theorem definition_argumentsFirst {name : String} {arguments : List LoweredType} {returnType : LoweredType}
    (hroom : (definition name arguments returnType).state.values.size < Handle.limit) :
    ∃ f, definition name arguments returnType = ⟨.ok (), f, []⟩ ∧ f.Registered ∧ f.ArgumentsFirst f.arguments ∧
      f.blockIds = [] := by
  have hstart : ArgumentsFirst { declaration name arguments returnType with layout := some #[] } [] := ⟨rfl, by simp⟩
  obtain ⟨f, hrun, hf, hl, ha, hb⟩ :=
    pushArguments_argumentsFirst arguments (registered_declaration name arguments returnType) hstart rfl rfl hroom
  refine ⟨f, hrun, hf, ?_, hb⟩
  rw [ha]
  exact hl

/-! ## Any number of requests -/

theorem performAll_cons (r : Request) (rs : List Request) (f : Function) :
    Request.performAll (r :: rs) f =
      ⟨(Request.performAll rs (r.perform f).state).result, (Request.performAll rs (r.perform f).state).state,
        (r.perform f).log ++ (Request.performAll rs (r.perform f).state).log⟩ := rfl

theorem widens_performAll (rs : List Request) : Widens (Request.performAll rs) := by
  induction rs with
  | nil => exact widens_pure ()
  | cons r rs ih => exact .bind (fun f => widens_perform r f) fun _ => ih

/-- **A run of requests keeps the names in order and the layout free of duplicates, and no name is ever taken.** -/
theorem performAll_registered (rs : List Request) : ∀ {f : Function}, f.Registered → f.blockIds.Nodup →
    (Request.performAll rs f).state.values.size < Handle.limit →
    (Request.performAll rs f).state.Registered ∧ (Request.performAll rs f).state.blockIds.Nodup ∧
      f.Grows (Request.performAll rs f).state ∧ ∀ n a b, .nameClash n a b ∉ (Request.performAll rs f).log := by
  induction rs with
  | nil =>
    intro f hf hn _
    exact ⟨hf, hn, .refl f, fun _ _ _ => List.not_mem_nil⟩
  | cons r rs ih =>
    intro f hf hn hroom
    have hroom₁ : f.values.size < Handle.limit := Nat.lt_of_le_of_lt (widens_performAll (r :: rs) f) hroom
    have hr := perform_tidy hf hroom₁ r
    rw [performAll_cons] at hroom ⊢
    obtain ⟨hf', hn', hg', hlog⟩ := ih (hr.change.registered hf) (hr.change.nodup hn) hroom
    refine ⟨hf', hn', hr.change.grows.trans hg', ?_⟩
    intro n a b hmem
    rcases List.mem_append.1 hmem with h | h
    · exact hr.clash n a b h
    · exact hlog n a b h

/-! ## The tables fit together -/

theorem Registered.position_iff (h : f.Registered) {i : Nat} {v : ValueId} :
    f.argumentPosition? v = some i ↔ f.argumentValue? i = some v := by
  have hobj := h.objects (o := .argument i) (v := v)
  rw [show f.argumentValue? i = f.valueOf? (.argument i) from rfl, hobj, argumentPosition?, Option.bind_eq_some_iff]
  refine exists_congr fun x => and_congr_right fun _ => ?_
  unfold Value.argument? Value.object?
  cases x.kind <;> simp

theorem Registered.result_iff (h : f.Registered) {i : InstructionId} {v : ValueId} :
    (∃ x, f.value? v = some x ∧ x.kind = .result i) ↔
      v ≠ nilValue ∧ ∃ ins, f.instruction? i = some ins ∧ ins.value = v := by
  have hobj := h.objects (o := .instruction i) (v := v)
  have hkind : (∃ x, f.value? v = some x ∧ x.kind = .result i) ↔
      ∃ x, f.value? v = some x ∧ x.object? = some (.instruction i) := by
    refine exists_congr fun x => and_congr_right fun _ => ?_
    unfold Value.object?
    cases x.kind <;> simp
  rw [hkind, ← hobj]
  simp only [valueOf?, Option.bind_eq_some_iff]
  constructor
  · rintro ⟨ins, hi, hv⟩
    split at hv
    · cases hv
    · next hne =>
      cases hv
      exact ⟨hne, ins, hi, rfl⟩
  · rintro ⟨hne, ins, hi, rfl⟩
    exact ⟨ins, hi, by rw [if_neg hne]⟩

/-- A result is called `$k` with a number that no argument has. -/
theorem Registered.result_id (h : f.Registered) (hl : f.ArgumentsFirst f.arguments) {v : ValueId} {x : Value}
    {i : InstructionId} (hx : f.value? v = some x) (hk : x.kind = .result i) :
    ∃ k, f.arguments.length ≤ k ∧ x.id = variableText k := by
  have hxo : x.object? = some (.instruction i) := by simp [Value.object?, hk]
  obtain ⟨k, -, hid⟩ := h.spelled hx hxo
  refine ⟨k, ?_, hid⟩
  by_contra hlt
  have harg := (hl.value (List.getElem?_eq_getElem (Nat.not_le.1 hlt))).2
  obtain rfl := h.value_unique hx harg hxo rfl hid
  rw [harg] at hx
  cases hx
  cases hk

theorem Registered.block_found (h : f.Registered) {b : BlockId} {x : Block} (hx : f.block? b = some x) :
    f.blockNamed? (f.idText x.label) = some x ∧ f.labelTarget? x.label = some b := by
  obtain ⟨y, hy, hyo⟩ := h.objects.1 (show f.valueOf? (.block b) = some x.label by simp [valueOf?, hx])
  have hname : f.names.get? y.id = some (.block b) := h.names.2 ⟨_, y, hy, hyo, rfl⟩
  refine ⟨by simp [blockNamed?, idText, hy, hname, hx], ?_⟩
  have hlabel : y.label? = some b := by
    unfold Value.object? at hyo
    unfold Value.label?
    cases hk : y.kind <;> simp_all
  simp [labelTarget?, hy, hlabel]

theorem Registered.represented (h : f.Registered) (hl : f.ArgumentsFirst f.arguments) (hn : f.blockIds.Nodup) :
    f.Represented where
  absent := by
    intro v
    constructor
    · rintro ⟨x, hx, hk⟩
      exact h.only hx hk
    · rintro rfl
      exact ⟨_, h.absent, rfl⟩
  argument := fun hi => (hl.value hi).2
  argumentValue := by
    intro i
    split
    · next hi => exact (hl.value (List.getElem?_eq_getElem hi)).1
    · next hi => exact Array.getElem?_eq_none (by rw [hl.count]; omega)
  argumentPosition := h.position_iff
  result := by
    intro v x i hx hk
    refine ⟨h.result_id hl hx hk, ?_⟩
    intro w y j hy hj hid
    exact h.value_unique hy hx (by simp [Value.object?, hj]; rfl) (by simp [Value.object?, hk]; rfl) hid
  instruction := h.result_iff
  names := by
    intro n o
    rw [h.names]
    refine exists_congr fun v => ?_
    rw [h.objects]
    constructor
    · rintro ⟨x, hx, hxo, hid⟩
      exact ⟨⟨x, hx, hxo⟩, by rw [hx, ← hid]; rfl⟩
    · rintro ⟨⟨x, hx, hxo⟩, hid⟩
      exact ⟨x, hx, hxo, by simpa [hx] using hid⟩
  objects := h.objects.1
  block := h.block_found
  layout := hn

/-- **The tables of a function stay in step.**  Whatever is requested of a definition, and however much of it is
refused, the tables fit together and no name is ever found taken, as long as there is room for values. -/
theorem performAll_represented (name : String) (arguments : List LoweredType) (returnType : LoweredType)
    (requests : List Request) :
    let made := definition name arguments returnType
    let built := Request.performAll requests made.state
    built.state.values.size < Handle.limit →
      made.result = .ok () ∧ built.state.Represented ∧ ∀ n a b, .nameClash n a b ∉ made.log ++ built.log := by
  intro made built hroom
  have hroom₁ : made.state.values.size < Handle.limit :=
    Nat.lt_of_le_of_lt (widens_performAll requests made.state) hroom
  obtain ⟨f, hmade, hf, hl, hb⟩ := definition_argumentsFirst hroom₁
  have hstate : made.state = f := by rw [show made = _ from hmade]
  have hbuilt : built = Request.performAll requests f := by rw [← hstate]
  rw [hbuilt] at hroom ⊢
  obtain ⟨hf', hn', hg', hlog⟩ := performAll_registered requests hf (by rw [hb]; exact List.nodup_nil) hroom
  have hl' : ArgumentsFirst (Request.performAll requests f).state (Request.performAll requests f).state.arguments := by
    rw [hg'.arguments]
    exact hl.grows hg'
  refine ⟨by rw [show made = _ from hmade], hf'.represented hl' hn', ?_⟩
  rw [show made = _ from hmade]
  exact hlog

end Function

namespace Sample

/-- Two blocks, a constant, a slot and three refusals: a block placed twice, a read of an argument that is no address
and a second exit. -/
def requests : List Request :=
  let unit := CompilationUnit.empty "sample" {}
  [.block, .place ⟨0⟩, .place ⟨0⟩, .constant (.bool true) .bool, .instruction unit ⟨0⟩ (.alloca (.elementary .i32) 1),
    .instruction unit ⟨0⟩ (.read ⟨1⟩), .block, .leave ⟨0⟩ (.branch ⟨5⟩), .leave ⟨0⟩ .unreachable, .place ⟨1⟩,
    .give unit ⟨1⟩ none]

theorem requests_represented :
    let made := Function.definition "f" [.elementary .i32] .nil
    let built := Request.performAll requests made.state
    built.state.values.size < Handle.limit ∧ built.state.Represented ∧
      ∀ n a b, .nameClash n a b ∉ made.log ++ built.log := by
  have hroom : (Request.performAll requests
      (Function.definition "f" [.elementary .i32] .nil).state).state.values.size < Handle.limit := by decide +kernel
  obtain ⟨-, hrep, hlog⟩ := Function.performAll_represented "f" [.elementary .i32] .nil requests hroom
  exact ⟨hroom, hrep, hlog⟩

end Sample

end BlockForm
