import BlockForm.Proofs.Action
import BlockForm.Proofs.PlainLowering

/-!
# BlockForm.Proofs.Rejection — runs that end in a user error

`Rejects x s e s'` says that `x` run from `s` ends in the user error `e` and leaves `s'`.  Together with `Gives` it
covers the two ways a run can end without a fault, and it is opened in the same way, by `rejects_bind` and its kin.
Steps on a function or on the unit never end so (`not_rejects_of_plain`): what is left of a rejected item is a body
that was lowered up to the mistake (`lowerFunction_rejects`).
-/

namespace BlockForm

namespace Action

variable {σ α β : Type} {s s' : σ} {e : Error}

/-- `x` run from `s` ends in the user error `e` and leaves `s'`. -/
def Rejects (x : Action σ α) (s : σ) (e : Error) (s' : σ) : Prop :=
  (x s).result = .error e ∧ e.isInternal = false ∧ (x s).state = s'

theorem Rejects.ordinary {r : σ → σ} {x : Action σ α} (hx : Plain r .mistake x) (h : x.Rejects s e s') :
    ∃ mistake span, e = .user mistake span := by
  rcases Error.isOrdinary_cases (hx.error h.1) with hi | huser
  · cases hi.symm.trans h.2.1
  · exact huser

theorem not_rejects_of_plain {r : σ → σ} {x : Action σ α} (hx : Plain r .fault x) : ¬ x.Rejects s e s' := by
  intro h
  have hi := Error.isInternal_of_isOrdinary (hx.error h.1)
  cases hi.symm.trans h.2.1

theorem rejects_iff {x : Action σ α} : Rejects x s e s' ↔ Fails x s e s' ∧ e.isInternal = false :=
  ⟨fun ⟨h, hi, hs⟩ => ⟨⟨h, hs⟩, hi⟩, fun ⟨⟨h, hs⟩, hi⟩ => ⟨h, hi, hs⟩⟩

theorem rejects_bind {x : Action σ α} {f : α → Action σ β} :
    Rejects (x >>= f) s e s' ↔ Rejects x s e s' ∨ ∃ a t, Gives x s a t ∧ Rejects (f a) t e s' := by
  simp only [rejects_iff, fails_bind, or_and_right, ← exists_and_right, and_assoc]

/-- Only the second of two steps can reject. -/
theorem rejects_bind_of_plain {r : σ → σ} {x : Action σ α} {f : α → Action σ β} (hx : Plain r .fault x) :
    Rejects (x >>= f) s e s' ↔ ∃ a t, Gives x s a t ∧ Rejects (f a) t e s' := by
  rw [rejects_bind, or_iff_right (not_rejects_of_plain hx)]

theorem rejects_get_bind {f : σ → Action σ β} : Rejects (get >>= f) s e s' ↔ Rejects (f s) s e s' := by
  have hget : ¬ Rejects (get : Action σ σ) s e s' := by
    rintro ⟨h, -⟩
    cases h
  rw [rejects_bind, or_iff_right hget]
  simp [gives_get]

@[simp] theorem not_rejects_fault {f : Fault} : ¬ Rejects (fault f : Action σ α) s e s' := by
  rintro ⟨h, hi, -⟩
  cases h
  rw [Error.isInternal] at hi
  cases hi

theorem rejects_need_bind {o : Option α} {f : Fault} {k : α → Action σ β} :
    Rejects (need o f >>= k) s e s' ↔ ∃ a, o = some a ∧ Rejects (k a) s e s' := by
  cases o with
  | none => simp [rejects_bind, need]
  | some a =>
    show Rejects (pure a >>= k) s e s' ↔ _
    simp

theorem rejects_fail {e' : Error} :
    Rejects (fail e' : Action σ α) s e s' ↔ e' = e ∧ e.isInternal = false ∧ s = s' := by
  simp [Rejects, fail]

theorem rejects_ite {c : Prop} [Decidable c] {x y : Action σ α} :
    Rejects (if c then x else y) s e s' ↔ (c ∧ Rejects x s e s') ∨ (¬ c ∧ Rejects y s e s') := by
  by_cases hc : c <;> simp [hc]

end Action

open Action

theorem Lowering.rejects_inScope {α : Type} {x : Lowering α} {s s' : LoweringState} {e : Error} :
    Rejects (inScope x) s e s' ↔
      ∃ t, Rejects x { s with scopes := [] :: s.scopes } e t ∧ { t with scopes := t.scopes.tail } = s' := by
  constructor
  · rintro ⟨h, hi, rfl⟩
    exact ⟨_, ⟨h, hi, rfl⟩, rfl⟩
  · rintro ⟨t, ⟨h, hi, rfl⟩, rfl⟩
    exact ⟨h, hi, rfl⟩

namespace CompilationUnit

variable {u u' : CompilationUnit} {e : Error} {item : FunctionItem}

/-! ## Functions -/

/-- A definition is rejected in its body. -/
theorem defineFunction_rejects {arguments : List LoweredType} {result : LoweredType} :
    Rejects (defineFunction item arguments result) u e u' ↔
      ∃ f entry endBlock f₁ s, Gives (Function.pushArguments 0 arguments)
          { Function.declaration item.signature.name arguments result with layout := some #[] } () f ∧
        Gives Function.openBody f (entry, endBlock) f₁ ∧
        Rejects (Lowering.lowerFunctionBody item) ⟨u, f₁, entry, endBlock, [[]]⟩ e s ∧ s.unit = u' := by
  have hdef : Function.definition item.signature.name arguments result = Function.pushArguments 0 arguments
      { Function.declaration item.signature.name arguments result with layout := some #[] } := rfl
  generalize hf₀ : ({ Function.declaration item.signature.name arguments result with layout := some #[] } :
    Function) = f₀ at hdef ⊢
  constructor
  · rintro ⟨hres, hi, rfl⟩
    unfold defineFunction at hres ⊢
    simp only [hdef] at hres ⊢
    cases hd : (Function.pushArguments 0 arguments f₀).result with
    | error e' =>
      simp only [hd] at hres
      cases hres
      exact absurd ⟨hd, hi, rfl⟩ (not_rejects_of_plain (Function.plain_pushArguments arguments 0))
    | ok a =>
      simp only [hd] at hres ⊢
      cases ho : (Function.openBody (Function.pushArguments 0 arguments f₀).state).result with
      | error e' =>
        simp only [ho] at hres
        cases hres
        exact absurd ⟨ho, hi, rfl⟩ (not_rejects_of_plain Function.plain_openBody)
      | ok p =>
        simp only [ho] at hres ⊢
        exact ⟨_, p.1, p.2, _, _, ⟨hd, rfl⟩, ⟨ho, rfl⟩, ⟨except_map_eq_error.1 hres, hi, rfl⟩, rfl⟩
  · rintro ⟨f, entry, endBlock, f₁, s, hd, ho, hl, rfl⟩
    unfold Rejects defineFunction
    simp only [hdef, hd.1, hd.2, ho.1, ho.2, hl.1, hl.2.1, hl.2.2, Except.map, and_self]

/-- A function is rejected in its definition, after its signature. -/
theorem lowerFunction_rejects : Rejects (lowerFunction item) u e u' ↔
    ∃ arguments result u₁, Gives (lowerSignature item.signature) u (arguments, result) u₁ ∧
      Rejects (defineFunction item arguments result) u₁ e u' := by
  have hreport : Plain (withVerify false) .fault (Action.report (.functionStarted item.signature.name)) :=
    plain_report _
  have hsignature : Plain (withVerify false) .fault (lowerSignature item.signature) := plain_lowerSignature _
  have hadd : ∀ (f : Function) (v : CompilationUnit), ¬ Rejects (do
      Action.report (.functionFinished f.name f.blockIds.length f.values.size)
      let _ ← addFunction f) v e u' := fun f v =>
    not_rejects_of_plain (r := withVerify false)
      ((plain_report _).bind fun _ => (plain_addFunction f).bind fun _ => plain_pure _)
  simp only [lowerFunction, rejects_bind_of_plain hreport, rejects_bind_of_plain hsignature,
    rejects_bind (x := defineFunction _ _ _), hadd, and_false, exists_false, or_false, gives_report]
  constructor
  · rintro ⟨_, _, rfl, ⟨arguments, result⟩, u₁, h₁, h₂⟩
    exact ⟨arguments, result, u₁, h₁, h₂⟩
  · rintro ⟨arguments, result, u₁, h₁, h₂⟩
    exact ⟨(), u, rfl, (arguments, result), u₁, h₁, h₂⟩

/-! ## Passes that collect errors -/

theorem collecting_collects {x : Interning Unit} {errors : List Error} : Gives (collecting x) u errors u' ↔
    (errors = [] ∧ Gives x u () u') ∨ ∃ e, errors = [e] ∧ Rejects x u e u' := by
  unfold Gives Rejects collecting
  rcases x u with ⟨e | a, v, log⟩
  · cases hi : e.isInternal with
    | true => simp [hi]
    | false =>
      simp only [hi, Bool.false_eq_true, if_false, Except.ok.injEq, reduceCtorEq, false_and, and_false, false_or,
        Except.error.injEq]
      constructor
      · rintro ⟨rfl, rfl⟩
        exact ⟨e, rfl, rfl, hi, rfl⟩
      · rintro ⟨e', rfl, rfl, -, rfl⟩
        exact ⟨rfl, rfl⟩
  · simp only [Except.ok.injEq, true_and, reduceCtorEq, false_and, and_false, exists_false, or_false]
    exact and_congr_left fun _ => eq_comm

theorem collectingAll_cons_collects {step : Item → Interning Unit} {item : Item} {items : List Item}
    {errors : List Error} : Gives (collectingAll step (item :: items)) u errors u' ↔
      ∃ es v rest, Gives (collecting (step item)) u es v ∧ Gives (collectingAll step items) v rest u' ∧
        errors = es ++ rest := by
  simp only [collectingAll, gives_bind, gives_pure]
  constructor
  · rintro ⟨es, v, h₁, rest, _, h₂, rfl, rfl⟩
    exact ⟨es, v, rest, h₁, h₂, rfl⟩
  · rintro ⟨es, v, rest, h₁, h₂, rfl⟩
    exact ⟨es, v, h₁, rest, u', h₂, rfl, rfl⟩

/-- Steps that reject nothing leave nothing to collect. -/
theorem collectingAll_of_plain {step : Item → Interning Unit} {r : CompilationUnit → CompilationUnit}
    (hstep : ∀ item, Plain r .fault (step item)) {items : List Item} {errors : List Error} :
    ∀ {u}, Gives (collectingAll step items) u errors u' → errors = [] := by
  induction items generalizing errors with
  | nil => exact fun h => (gives_pure.1 h).1.symm
  | cons item items ih =>
    intro u h
    obtain ⟨es, v, rest, h₁, h₂, rfl⟩ := collectingAll_cons_collects.1 h
    rcases collecting_collects.1 h₁ with ⟨rfl, -⟩ | ⟨e, -, h⟩
    · exact ih h₂
    · exact absurd h (not_rejects_of_plain (hstep item))

end CompilationUnit

end BlockForm
