import BlockForm.Lowering.State

/-!
# BlockForm.Proofs.Action — runs that succeed and runs that fail

`Gives x s a s'` says that `x` run from `s` succeeds with `a` and leaves `s'`.  One equivalence for each way to
put steps together: a successful run of a composite step is opened by rewriting with `gives_bind` and its kin,
and what failed runs do never enters.  A failed run, `Fails x s e s'`, is opened by `fails_bind`.
-/

namespace BlockForm

namespace Action

variable {σ α β : Type}

/-- `x` run from `s` succeeds with `a` and leaves `s'`. -/
def Gives (x : Action σ α) (s : σ) (a : α) (s' : σ) : Prop :=
  (x s).result = .ok a ∧ (x s).state = s'

/-- A step has one outcome. -/
theorem Gives.unique {x : Action σ α} {s s₁ s₂ : σ} {a b : α} (h₁ : x.Gives s a s₁)
    (h₂ : x.Gives s b s₂) : a = b ∧ s₁ = s₂ := by
  have hab := h₁.1.symm.trans h₂.1
  exact ⟨Except.ok.inj hab, h₁.2.symm.trans h₂.2⟩

@[simp] theorem gives_pure {s s' : σ} {a b : α} :
    Gives (pure a : Action σ α) s b s' ↔ a = b ∧ s = s' := by
  show (Action.pure a s).result = _ ∧ (Action.pure a s).state = _ ↔ _
  simp [Action.pure]

theorem gives_bind {x : Action σ α} {f : α → Action σ β} {s s'' : σ} {b : β} :
    Gives (x >>= f) s b s'' ↔ ∃ a s', Gives x s a s' ∧ Gives (f a) s' b s'' := by
  show (Action.bind x f s).result = _ ∧ (Action.bind x f s).state = _ ↔ _
  unfold Gives Action.bind
  rcases x s with ⟨_ | a, s', log⟩
  · simp
  · constructor
    · intro h
      exact ⟨a, s', ⟨rfl, rfl⟩, h⟩
    · rintro ⟨c, t, ⟨hc, ht⟩, h⟩
      cases hc
      subst ht
      exact h

/-- `x` run from `s` fails with `e` and leaves `s'`. -/
def Fails (x : Action σ α) (s : σ) (e : Error) (s' : σ) : Prop :=
  (x s).result = .error e ∧ (x s).state = s'

theorem fails_bind {x : Action σ α} {f : α → Action σ β} {s s' : σ} {e : Error} :
    Fails (x >>= f) s e s' ↔ Fails x s e s' ∨ ∃ a t, Gives x s a t ∧ Fails (f a) t e s' := by
  show (Action.bind x f s).result = _ ∧ (Action.bind x f s).state = _ ↔ _
  unfold Fails Gives Action.bind
  rcases x s with ⟨e' | a, t, log⟩
  · simp
  · constructor
    · intro h
      exact Or.inr ⟨a, t, ⟨rfl, rfl⟩, h⟩
    · rintro (⟨h, -⟩ | ⟨c, t', ⟨hc, ht⟩, h⟩)
      · cases h
      · cases hc
        subst ht
        exact h

theorem gives_get {s t s' : σ} : Gives (get : Action σ σ) s t s' ↔ s = t ∧ s = s' := by
  simp [Gives, get]

@[simp] theorem gives_set {t s s' : σ} {a : Unit} : Gives (set t) s a s' ↔ t = s' := by
  simp [Gives, set]

@[simp] theorem gives_modify {f : σ → σ} {s s' : σ} {a : Unit} : Gives (modify f) s a s' ↔ f s = s' := by
  simp [Gives, modify]

@[simp] theorem gives_report {e : Event} {s s' : σ} {a : Unit} : Gives (report e) s a s' ↔ s = s' := by
  simp [Gives, report]

@[simp] theorem not_gives_fail {e : Error} {s s' : σ} {a : α} : ¬ Gives (fail e) s a s' := by
  simp [Gives, fail]

@[simp] theorem not_gives_fault {f : Fault} {s s' : σ} {a : α} : ¬ Gives (fault f) s a s' := by
  simp [Gives, fault]

@[simp] theorem gives_check {r : Except Fault α} {s s' : σ} {a : α} :
    Gives (check r) s a s' ↔ r = .ok a ∧ s = s' := by
  cases r with
  | error f => simp [check]
  | ok b => simp [Gives, check, Action.pure]

@[simp] theorem gives_need {o : Option α} {f : Fault} {s s' : σ} {a : α} :
    Gives (need o f) s a s' ↔ o = some a ∧ s = s' := by
  cases o with
  | none => simp [need]
  | some b => simp [Gives, need, Action.pure]

@[simp] theorem gives_handle {kind : HandleKind} {i : Nat} {s s' : σ} {h : Handle kind} :
    Gives (handle kind i) s h s' ↔ i < Handle.limit ∧ ⟨i⟩ = h ∧ s = s' := by
  unfold handle
  by_cases hi : i < Handle.limit
  · simp [hi, Gives, Action.pure]
  · simp [hi]

/-! What the first of two steps gives is put in its place at once where it is known. -/

@[simp] theorem gives_get_bind {f : σ → Action σ β} {s s' : σ} {b : β} :
    Gives (get >>= f) s b s' ↔ Gives (f s) s b s' := by
  simp [gives_bind, gives_get, and_assoc]

@[simp] theorem gives_modify_bind {g : σ → σ} {f : Unit → Action σ β} {s s' : σ} {b : β} :
    Gives (modify g >>= f) s b s' ↔ Gives (f ()) (g s) b s' := by
  simp only [gives_bind, gives_modify]
  exact ⟨fun ⟨_, _, hs, h⟩ => hs ▸ h, fun h => ⟨(), _, rfl, h⟩⟩

@[simp] theorem gives_report_bind {e : Event} {f : Unit → Action σ β} {s s' : σ} {b : β} :
    Gives (report e >>= f) s b s' ↔ Gives (f ()) s b s' := by
  simp only [gives_bind, gives_report]
  exact ⟨fun ⟨_, _, hs, h⟩ => hs ▸ h, fun h => ⟨(), _, rfl, h⟩⟩

@[simp] theorem gives_check_bind {r : Except Fault α} {f : α → Action σ β} {s s' : σ} {b : β} :
    Gives (check r >>= f) s b s' ↔ ∃ a, r = .ok a ∧ Gives (f a) s b s' := by
  simp [gives_bind, and_assoc]

@[simp] theorem gives_need_bind {o : Option α} {flt : Fault} {f : α → Action σ β} {s s' : σ} {b : β} :
    Gives (need o flt >>= f) s b s' ↔ ∃ a, o = some a ∧ Gives (f a) s b s' := by
  simp [gives_bind, and_assoc]

@[simp] theorem gives_handle_bind {kind : HandleKind} {i : Nat} {f : Handle kind → Action σ β} {s s' : σ}
    {b : β} : Gives (handle kind i >>= f) s b s' ↔ i < Handle.limit ∧ Gives (f ⟨i⟩) s b s' := by
  simp [gives_bind, and_assoc]

theorem gives_ite {c : Prop} [Decidable c] {x y : Action σ α} {s s' : σ} {a : α} :
    Gives (if c then x else y) s a s' ↔ (c ∧ Gives x s a s') ∨ (¬ c ∧ Gives y s a s') := by
  by_cases hc : c <;> simp [hc]

/-! A traversal that succeeds does so part by part. -/

@[simp] theorem gives_mapM_nil {g : α → Action σ β} {s s' : σ} {bs : List β} :
    Gives (([] : List α).mapM g) s bs s' ↔ [] = bs ∧ s = s' := by
  rw [List.mapM_nil, gives_pure]

theorem gives_mapM_cons {g : α → Action σ β} {a : α} {as : List α} {s s' : σ} {bs : List β} :
    Gives ((a :: as).mapM g) s bs s' ↔
      ∃ b t cs, Gives (g a) s b t ∧ Gives (as.mapM g) t cs s' ∧ b :: cs = bs := by
  rw [List.mapM_cons]
  simp only [gives_bind, gives_pure]
  constructor
  · rintro ⟨b, t, hb, cs, _, hcs, rfl, rfl⟩
    exact ⟨b, t, cs, hb, hcs, rfl⟩
  · rintro ⟨b, t, cs, hb, hcs, rfl⟩
    exact ⟨b, t, hb, cs, _, hcs, rfl, rfl⟩

end Action

/-! ## Steps of lowering -/

namespace Lowering

open Action

variable {α : Type} {s s' : LoweringState} {a : α}

@[simp] theorem gives_inUnit {x : CompilationUnit.Interning α} :
    Gives (inUnit x) s a s' ↔ ∃ u, Gives x s.unit a u ∧ { s with unit := u } = s' := by
  constructor
  · rintro ⟨h, rfl⟩
    exact ⟨_, ⟨h, rfl⟩, rfl⟩
  · rintro ⟨u, ⟨h, rfl⟩, rfl⟩
    exact ⟨h, rfl⟩

@[simp] theorem gives_inFunction {x : Building α} :
    Gives (inFunction x) s a s' ↔ ∃ f, Gives x s.function a f ∧ { s with function := f } = s' := by
  constructor
  · rintro ⟨h, rfl⟩
    exact ⟨_, ⟨h, rfl⟩, rfl⟩
  · rintro ⟨f, ⟨h, rfl⟩, rfl⟩
    exact ⟨h, rfl⟩

theorem gives_emit {operation : Operation} {v : ValueId} :
    Gives (emit operation) s v s' ↔
      ∃ f, Gives (Function.pushInstruction s.unit s.current operation) s.function v f ∧
        { s with function := f } = s' :=
  gives_inFunction (x := Function.pushInstruction s.unit s.current operation)

theorem gives_inScope {x : Lowering α} :
    Gives (inScope x) s a s' ↔
      ∃ t, Gives x { s with scopes := [] :: s.scopes } a t ∧ { t with scopes := t.scopes.tail } = s' := by
  constructor
  · rintro ⟨h, rfl⟩
    exact ⟨_, ⟨h, rfl⟩, rfl⟩
  · rintro ⟨t, ⟨h, rfl⟩, rfl⟩
    exact ⟨h, rfl⟩

theorem gives_leave {exit : Exit} {a : Unit} :
    Gives (leave exit) s a s' ↔
      ∃ f, Gives (Function.setExit s.current exit) s.function a f ∧ { s with function := f } = s' := by
  simp [leave]

theorem gives_startBlock {b : BlockId} {a : Unit} :
    Gives (startBlock b) s a s' ↔
      ∃ f, Gives (Function.appendBlock b) s.function () f ∧ { s with function := f, current := b } = s' := by
  simp only [startBlock, gives_bind, gives_inFunction, gives_modify]
  constructor
  · rintro ⟨_, _, ⟨f, hf, rfl⟩, rfl⟩
    exact ⟨f, hf, rfl⟩
  · rintro ⟨f, hf, rfl⟩
    exact ⟨(), _, ⟨f, hf, rfl⟩, rfl⟩

theorem gives_isTerminated {b : Bool} :
    Gives isTerminated s b s' ↔ (s.function.block? s.current).any Block.isTerminated = b ∧ s = s' := by
  simp only [isTerminated, gives_get_bind, gives_pure]

@[simp] theorem gives_functionName_bind {f : String → Lowering α} :
    Gives (functionName >>= f) s a s' ↔ Gives (f s.function.name) s a s' := by
  simp [functionName]

theorem gives_typeOf {v : ValueId} {ty : LoweredType} :
    Gives (typeOf v) s ty s' ↔ s.function.operandType v = .ok ty ∧ s = s' := by
  simp [typeOf]

theorem gives_slotOf {name : String} {v : ValueId} :
    Gives (slotOf name) s v s' ↔ s.scopes.findSome? (List.lookup name) = some v ∧ s = s' := by
  simp [slotOf]

end Lowering

end BlockForm
