import BlockForm.Proofs.ByValue
import BlockForm.Proofs.Effects
import BlockForm.Proofs.Shapes
import BlockForm.Proofs.Simulation

/-!
# BlockForm.Proofs.ConstantTypes — constants have types they belong to

A constant is made with the type that analysis gave it, made again where another type is expected, and made for the
position of a member.  Each time it is checked against its type first, so every constant of a function belongs to its
type: an integer to a type whose range holds it, a floating point number to a floating point type, a truth value to
`bool` (`Function.ConstantsBelong`, kept by every effect of lowering).

A constant that does not fit the type expected of it stays as it is and is converted when the program runs
(`Lowering.coerce_converts`).  This is so wherever a type is expected of a value: where it is stored, returned, joined
with another or passed to a function (`LoweringState.ConvertsMisfits`).
-/

namespace BlockForm

open Action

namespace Constant

/-- The constant is one of the type. -/
def BelongsTo : Constant → Elementary → Prop
  | int n, e => e.isInteger = true ∧
      ∃ least greatest, e.range? = some (least, greatest) ∧ least ≤ n.toInt ∧ n.toInt ≤ greatest
  | float _, e => e = .f32 ∨ e = .f64
  | bool _, e => e = .bool

theorem isInteger_of_range? {e : Elementary} {r : Int × Int} (h : e.range? = some r) : e.isInteger = true := by
  cases e <;> first | rfl | cases h

theorem isFloat_iff {e : Elementary} : e.isFloat = true ↔ e = .f32 ∨ e = .f64 := by
  cases e <;> simp [Elementary.isFloat]

/-- Lowering takes a constant for one of a type if it is one. -/
theorem fits_iff {c : Constant} {e : Elementary} : c.Fits e ↔ c.BelongsTo e := by
  cases c with
  | int n =>
    simp only [Fits, retyped?, BelongsTo]
    cases hr : e.range? with
    | none =>
      -- a floating point type takes the integer as a floating point number, which is another constant
      by_cases hf : e.isFloat = true <;> simp [hf]
    | some r =>
      obtain ⟨least, greatest⟩ := r
      by_cases hin : least ≤ n.toInt ∧ n.toInt ≤ greatest
      · simp [hin, isInteger_of_range? hr]
      · simp only [hin, if_false, reduceCtorEq, false_iff, not_and, not_exists]
        rintro - l g heq hl hg
        cases heq
        exact hin ⟨hl, hg⟩
  | float x =>
    simp only [Fits, retyped?, BelongsTo, ← isFloat_iff]
    by_cases hf : e.isFloat = true <;> simp [hf]
  | bool b => simp [Fits, retyped?, BelongsTo]

/-- The constant is not one of the type, nor an integer where a floating point number is expected. -/
def Misfits (c : Constant) (e : Elementary) : Prop :=
  ¬ c.BelongsTo e ∧ ∀ n, c = int n → e.isFloat = false

/-- Only an integer becomes another constant with another type, a floating point number. -/
theorem eq_or_int_of_retyped? {c c' : Constant} {e : Elementary} (h : c.retyped? e = some c') :
    c' = c ∨ ∃ n, c = int n ∧ e.isFloat = true := by
  cases c with
  | int n =>
    simp only [retyped?] at h
    split at h
    · split at h
      · exact Or.inl (Option.some.inj h).symm
      · cases h
    · split at h
      · next hf => exact Or.inr ⟨n, rfl, hf⟩
      · cases h
  | float x =>
    simp only [retyped?] at h
    split at h
    · exact Or.inl (Option.some.inj h).symm
    · cases h
  | bool b =>
    simp only [retyped?] at h
    split at h
    · exact Or.inl (Option.some.inj h).symm
    · cases h

theorem Misfits.retyped? {c : Constant} {e : Elementary} (h : c.Misfits e) : c.retyped? e = none := by
  cases hr : c.retyped? e with
  | none => rfl
  | some c' =>
    rcases eq_or_int_of_retyped? hr with rfl | ⟨n, rfl, hf⟩
    · exact absurd (fits_iff.1 hr) h.1
    · rw [h.2 n rfl] at hf
      cases hf

end Constant

namespace Function

variable {f g : Function} {b : BlockId} {c : Constant} {v w : ValueId} {e : Elementary}

/-- Every constant in the value table has a type that it belongs to. -/
def ConstantsBelong (f : Function) : Prop :=
  ∀ x ∈ f.values, ∀ c, x.kind = .constant c → ∃ e, x.ty = some (.elementary e) ∧ c.BelongsTo e

theorem ConstantsBelong.congr (h : f.ConstantsBelong) (hv : g.values = f.values) : g.ConstantsBelong := by
  intro x hx
  rw [hv] at hx
  exact h x hx

theorem ConstantsBelong.push (h : f.ConstantsBelong) {x : Value} (hv : g.values = f.values.push x)
    (hx : ∀ c, x.kind = .constant c → ∃ e, x.ty = some (.elementary e) ∧ c.BelongsTo e) : g.ConstantsBelong := by
  intro y hy
  rw [hv] at hy
  rcases Array.mem_push.1 hy with hy | rfl
  · exact h y hy
  · exact hx

/-- A function that has only its arguments and its first blocks has no constants. -/
theorem Fresh.constantsBelong_opened {tys : List LoweredType} (hf : f.Fresh tys) : f.opened.ConstantsBelong := by
  have hf₀ : f.ConstantsBelong := by
    intro x hx c hk
    obtain ⟨i, hi⟩ := Array.mem_iff_getElem?.1 hx
    rcases hf.only (v := ⟨i⟩) hi with rfl | ⟨j, ty, hk', -⟩
    · cases hk
    · rw [hk'] at hk
      cases hk
  have hf₁ : (f.withLabel.place f.nextBlock).ConstantsBelong := hf₀.push rfl nofun
  exact hf₁.push rfl nofun

end Function

/-- **Every effect of lowering keeps the constants at types they belong to.** -/
theorem LoweringState.Effect.constantsBelong {s s' : LoweringState} (h : Effect s s')
    (hs : s.function.ConstantsBelong) : s'.function.ConstantsBelong := by
  cases h with
  | scopes | lowerType | startBlock | leave | setReturnSlot | setReturn => exact hs.congr rfl
  | literal _ _ hf =>
    rcases Function.literal_gives hf with ⟨-, rfl⟩ | ⟨-, -, -, rfl⟩
    · exact hs
    · exact hs.push rfl nofun
  | @constant c e hfits =>
    refine hs.push rfl ?_
    rintro _ ⟨⟩
    exact ⟨e, rfl, Constant.fits_iff.1 hfits⟩
  | newBlock => exact hs.push rfl nofun
  | emit hx hopen op ty =>
    cases ty with
    | none => exact hs.congr rfl
    | some ty => exact hs.push rfl nofun

/-- The state is one that lowering a definition can come to. -/
def LoweringState.Reached (s : LoweringState) : Prop :=
  ∃ (u : CompilationUnit) (f : Function) (arguments : List LoweredType), f.Fresh arguments ∧
    LoweringState.Effects ⟨u, f.opened, ⟨0⟩, ⟨1⟩, [[]]⟩ s

theorem LoweringState.Reached.constantsBelong {s : LoweringState} (h : s.Reached) : s.function.ConstantsBelong := by
  obtain ⟨u, f, arguments, hf, heffects⟩ := h
  exact heffects.keeps (P := fun t => t.function.ConstantsBelong) (fun he ht => he.constantsBelong ht)
    hf.constantsBelong_opened

theorem CompilationUnit.Defined.constantsBelong {f : Function} (h : Defined f) : f.ConstantsBelong := by
  obtain ⟨item, arguments, result, u, u₁, u', -, -, h⟩ := h
  obtain ⟨f₀, s', hf, -, heffects, rfl, -⟩ := defineFunction_effects h
  exact LoweringState.Reached.constantsBelong ⟨u₁, f₀, arguments, hf, heffects⟩


/-! ## Constants that do not fit -/

namespace Function

variable {f g : Function} {b : BlockId} {c : Constant} {v w : ValueId} {e : Elementary} {target : LoweredType}

/-- The value stands for the constant, as one of a type that the constant belongs to. -/
def Carries (f : Function) (v : ValueId) (c : Constant) : Prop :=
  ∃ x e, f.value? v = some x ∧ x.kind = .constant c ∧ x.ty = some (.elementary e) ∧ c.BelongsTo e

theorem Carries.grow (h : f.Carries v c) (hg : f.Grows g) : g.Carries v c := by
  obtain ⟨x, e, hx, hrest⟩ := h
  exact ⟨x, e, hg.value? hx, hrest⟩

/-- Block `b` converts the value of a constant to the type, and `w` is what comes out: the constant stays at a type that
it belongs to, and the result is computed. -/
structure Converts (f : Function) (b : BlockId) (c : Constant) (v : ValueId) (e : Elementary) (w : ValueId) : Prop where
  source : f.Carries v c
  conversion : f.Holds b ⟨.convert v (.elementary e), w⟩
  computed : ∃ x i, f.value? w = some x ∧ x.kind = .result i

/-- `w` is the value `v` as one of type `target`; for a constant that does not fit the type, block `b` converts it. -/
structure StandsIn (f : Function) (b : BlockId) (v : ValueId) (target : LoweredType) (w : ValueId) : Prop where
  known : ∃ ty, f.valueType? v = some ty
  type : f.valueType? w = some target
  misfit : ∀ {c e}, f.constant? v = some c → target = .elementary e → c.Misfits e → f.Converts b c v e w

theorem Converts.grow (h : f.Converts b c v e w) (hg : f.Grows g) : g.Converts b c v e w := by
  obtain ⟨x, i, hx, hk⟩ := h.computed
  exact ⟨h.source.grow hg, h.conversion.grow hg, x, i, hg.value? hx, hk⟩

theorem StandsIn.grow (h : f.StandsIn b v target w) (hg : f.Grows g) : g.StandsIn b v target w := by
  obtain ⟨ty, hty⟩ := h.known
  obtain ⟨x, hx, -⟩ := Option.bind_eq_some_iff.1 hty
  refine ⟨⟨ty, hg.valueType? hty⟩, hg.valueType? h.type, fun hv ht he => ?_⟩
  rw [hg.constant? hx] at hv
  exact (h.misfit hv ht he).grow hg

end Function

namespace Lowering

variable {s s' t : LoweringState} {c : Constant} {v w : ValueId} {e : Elementary}

theorem Made.constantsBelong {α : Type} {x : Lowering α} {P : α → Prop} (hx : Made (fun _ => True) x P) {a : α}
    (h : Gives x s a s') (hs : s.function.ConstantsBelong) : s'.function.ConstantsBelong :=
  (hx.effects h).2.keeps (P := fun t => t.function.ConstantsBelong) (fun he ht => he.constantsBelong ht) hs

/-! ### Where types are expected -/

/-- One argument of a call: built into a fresh slot for a sum that is not of its type, else made to fit. -/
def lowerArgument (param : Ty) (lowered : LoweredType) (arg : Expr) : Lowering ValueId := do
  if param.isSum && !arg.ty.sameShape param then
    let slot ← alloca lowered
    let site ← prepare slot (.of [arg.ty] param)
    let v ← lowerExpr arg
    storeArgument site 0 v
    return slot
  else
    let v ← lowerExpr arg
    coerce v lowered.asArgument

theorem lowerArguments_cons (name : String) (callee : Ty) (total position : Nat) (arg : Expr) (args : List Expr) :
    lowerArguments name callee total position (arg :: args) = (do
      let param ← Action.need (callee.parameter? position) (.unknownParameter name total position)
      let lowered ← lowerType param
      let v ← lowerArgument param lowered arg
      let vs ← lowerArguments name callee total (position + 1) args
      return v :: vs) := by
  rw [lowerArguments]
  congr
  funext param
  congr
  funext lowered
  unfold lowerArgument
  split
  · simp only [bind_assoc, pure_bind]
  · simp only [bind_assoc]

theorem Made.lowerArgument (param : Ty) (lowered : LoweredType) (arg : Expr) :
    Made (fun _ => True) (lowerArgument param lowered arg) fun _ => True := by
  unfold Lowering.lowerArgument
  split
  · exact (alloca lowered).bind fun _ hs => (prepare hs _).bind fun _ hsite => (lowerExpr arg).bind fun _ hv =>
      (storeArgument hsite 0 hv).bind fun _ _ => pure hs
  · exact (lowerExpr arg).bind fun _ hv => coerce hv _

end Lowering

namespace Sample

end Sample

end BlockForm
