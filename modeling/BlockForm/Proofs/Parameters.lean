import BlockForm.Proofs.PlainLowering

/-!
# BlockForm.Proofs.Parameters — a call finds the parameters of its callee

A function type has one shape for no parameter, one for a single parameter and one for several, and a call takes it
apart again to find the parameter of an argument.  The two agree (`Signature.parameter?_ty`) except on a single
parameter of type `nil`, which looks like no parameter at all.  Apart from that case a call with an argument for every
parameter finds them all: if it fails for want of a parameter, one of its arguments has failed so by itself.
-/

namespace BlockForm

/-! ## Function types -/

namespace Signature

/-- There is a single parameter, and it is of type `nil`. -/
def takesNil (s : Signature) : Bool :=
  match s.params with
  | [p] => p.ty.isNil
  | _ => false

/-- **The parameters of a function type are those of the signature**, each a named member, and there are no others;
a single parameter of type `nil` is lost. -/
theorem parameter?_ty (s : Signature) (i : Nat) :
    s.ty.parameter? i = if s.takesNil then none else (s.params[i]?).map fun p => .leaf p.name p.ty := by
  unfold Ty.parameter? ty takesNil
  match s.params with
  | [] => simp [Ty.stripLeaf, Ty.nil, Ty.isNil, Ty.elementary?]
  | [p] =>
    have hleaf : (Ty.leaf p.name p.ty).isNil = p.ty.isNil := rfl
    cases i <;> cases hnil : p.ty.isNil <;> simp [Ty.stripLeaf, hleaf, hnil]
  | p :: q :: ps => simp only [Ty.stripLeaf, List.getElem?_map, Bool.false_eq_true, if_false]

theorem parameter?_ty_isSome {s : Signature} (hs : s.takesNil = false) {i : Nat} (hi : i < s.params.length) :
    (s.ty.parameter? i).isSome := by
  rw [parameter?_ty, hs, List.getElem?_eq_getElem hi]
  rfl

end Signature

/-! ## Where errors come from -/

namespace Action

variable {σ α β : Type} {P : Error → Prop}

/-- The errors of the step are of the given kind. -/
def Raises (x : Action σ α) (P : Error → Prop) : Prop := ∀ s e, (x s).result = .error e → P e

theorem raises_pure (a : α) : Raises (pure a : Action σ α) P := nofun

theorem Raises.bind {x : Action σ α} {k : α → Action σ β} (hx : x.Raises P) (hk : ∀ a, (k a).Raises P) :
    (x >>= k).Raises P := by
  intro s e h
  rcases fails_bind.1 ⟨h, rfl⟩ with hfail | ⟨a, t, -, hfail⟩
  · exact hx s e hfail.1
  · exact hk a t e hfail.1

end Action

open Action

/-- The error is a fault of a step, or one of the expressions has it by itself. -/
def Error.ComesFrom (args : List Expr) (e : Error) : Prop :=
  e.isOrdinary .step = true ∨ ∃ arg ∈ args, ∃ s, (Lowering.lowerExpr arg s).result = .error e

/-- A missing parameter is no fault of a step. -/
theorem Error.ComesFrom.argument {args : List Expr} {name : String} {total position : Nat}
    (h : (internal (.unknownParameter name total position)).ComesFrom args) :
    ∃ arg ∈ args, ∃ s,
      (Lowering.lowerExpr arg s).result = .error (.internal (.unknownParameter name total position)) := by
  rcases h with hstep | harg
  · cases hstep
  · exact harg

theorem Error.ComesFrom.cons {arg : Expr} {args : List Expr} {e : Error} (h : e.ComesFrom args) :
    e.ComesFrom (arg :: args) :=
  h.imp_right fun ⟨a, ha, s, hs⟩ => ⟨a, List.mem_cons_of_mem arg ha, s, hs⟩

namespace Lowering

variable {α : Type} {args : List Expr}

/-- The change of the verify option plays no part here. -/
theorem raises_of_plain {x : Lowering α} (hx : Plain (LoweringState.withVerify false) .step x) :
    x.Raises (Error.ComesFrom args) := fun _ _ h => Or.inl (hx.error h)

theorem raises_lowerExpr {arg : Expr} (harg : arg ∈ args) : (lowerExpr arg).Raises (Error.ComesFrom args) :=
  fun s _ h => Or.inr ⟨arg, harg, s, h⟩

/-- Arguments that have a parameter each bring in no error but their own. -/
theorem raises_lowerArguments (name : String) (callee : Ty) (total : Nat) : ∀ (position : Nat) (args : List Expr),
    (∀ i < args.length, (callee.parameter? (position + i)).isSome) →
    (lowerArguments name callee total position args).Raises (Error.ComesFrom args) := by
  intro position args
  induction args generalizing position with
  | nil =>
    intro _
    rw [lowerArguments]
    exact raises_pure _
  | cons arg args ih =>
    intro hfound
    have hrest : (lowerArguments name callee total (position + 1) args).Raises (Error.ComesFrom (arg :: args)) := by
      intro s e h
      refine (ih (position + 1) (fun i hi => ?_) s e h).cons
      rw [Nat.add_assoc, Nat.add_comm 1 i]
      exact hfound (i + 1) (Nat.succ_lt_succ hi)
    obtain ⟨param, hparam⟩ := Option.isSome_iff_exists.1 (hfound 0 (Nat.succ_pos _))
    rw [lowerArguments, show callee.parameter? position = some param from hparam]
    refine .bind (raises_pure param) fun param => .bind (raises_of_plain (plain_lowerType param)) fun lowered => ?_
    dsimp only
    have harg : (lowerExpr arg).Raises (Error.ComesFrom (arg :: args)) := raises_lowerExpr List.mem_cons_self
    split
    · refine .bind (raises_of_plain (plain_alloca _)) fun slot => .bind (raises_of_plain (plain_prepare _ _ _)) ?_
      refine fun site => harg.bind fun v => .bind (raises_of_plain (plain_storeArgument _ _ _)) fun _ => ?_
      exact .bind (raises_pure _) fun _ => hrest.bind fun _ => raises_pure _
    · refine harg.bind fun v => .bind (raises_of_plain (plain_coerce _ _)) fun _ => ?_
      exact hrest.bind fun _ => raises_pure _

/-- A call with an argument for every parameter brings in no error but those of its arguments. -/
theorem raises_lowerCall {s : Signature} (hs : s.takesNil = false) (hcount : args.length = s.params.length)
    (name : String) (explicit : Bool) (ty : Ty) (span : Span) :
    (lowerExpr (.call name args s.ty explicit ty span)).Raises (Error.ComesFrom args) := by
  have hfunction : s.ty.isDefined = false := rfl
  cases explicit with
  | false =>
    rw [lowerExpr.eq_def]
    simp only [Bool.false_eq_true, if_false, hfunction]
    refine .bind (raises_lowerArguments name s.ty _ 0 args fun i hi => ?_) fun values => ?_
    · rw [Nat.zero_add]
      exact Signature.parameter?_ty_isSome hs (hcount ▸ hi)
    · exact raises_of_plain (plain_finishCall name values)
  | true =>
    -- a conversion looks for no parameter, and takes one argument only
    rcases args with _ | ⟨arg, _ | ⟨second, rest⟩⟩
    · simp only [lowerExpr]
      exact raises_of_plain (plain_fault rfl)
    · rw [lowerExpr]
      refine .bind (raises_of_plain (plain_lowerType ty)) fun target => ?_
      exact .bind (raises_lowerExpr List.mem_cons_self) fun v => raises_of_plain (plain_coerce v target)
    · simp only [lowerExpr]
      exact raises_of_plain (plain_fault rfl)

end Lowering

open Lowering

/-- A single parameter of type `nil` is not found. -/
theorem lowerCall_takesNil {s : Signature} (hs : s.takesNil = true) (name : String) (arg : Expr) (ty : Ty) (span : Span)
    (st : LoweringState) :
    (lowerExpr (.call name [arg] s.ty false ty span) st).result = .error (.internal (.unknownParameter name 1 0)) := by
  have hfunction : s.ty.isDefined = false := rfl
  have hnone : s.ty.parameter? 0 = none := by rw [s.parameter?_ty, hs, if_pos rfl]
  rw [lowerExpr.eq_def]
  simp only [Bool.false_eq_true, if_false, hfunction]
  rw [lowerArguments, List.length_singleton, hnone]
  rfl

/-- **A call finds the parameters of its callee**, unless the only one is of type `nil`.  The function type of a
signature has the parameters of the signature and no others; so a call with an argument for every parameter never fails
for want of a parameter, if none of its arguments does.  A single parameter of type `nil` is never found. -/
theorem Signature.call_finds_parameters (s : Signature) :
    (∀ i, s.ty.parameter? i = if s.takesNil then none else (s.params[i]?).map fun p => .leaf p.name p.ty) ∧
      (s.takesNil = false → ∀ name args explicit ty span st callee total position, args.length = s.params.length →
        (lowerExpr (.call name args s.ty explicit ty span) st).result =
          .error (.internal (.unknownParameter callee total position)) →
        ∃ arg ∈ args, ∃ st',
          (lowerExpr arg st').result = .error (.internal (.unknownParameter callee total position))) ∧
      (s.takesNil = true → ∀ name arg ty span st,
        (lowerExpr (.call name [arg] s.ty false ty span) st).result =
          .error (.internal (.unknownParameter name 1 0))) := by
  refine ⟨s.parameter?_ty, ?_, lowerCall_takesNil⟩
  intro hs name args explicit ty span st callee total position hcount hfail
  exact (raises_lowerCall hs hcount name explicit ty span st _ hfail).argument

namespace Sample

/-- `fn drop(x: nil)` -/
def drop : Signature := ⟨"drop", [⟨"x", .nil, default⟩], none, default⟩

/-- `fn pair(x: nil, y: bool)` -/
def pair : Signature := ⟨"pair", [⟨"x", .nil, default⟩, ⟨"y", .elementary .bool, default⟩], none, default⟩

/-- `drop(x)` -/
def dropCall : Expr := .call "drop" [.ident "x" .nil default] drop.ty false .nil default

/-- The arguments of `pair(drop(x), true)`. -/
def pairArguments : List Expr := [dropCall, .ofBool true default]

/-- A state in an empty function. -/
def blank : LoweringState := ⟨.empty "sample" {}, (Function.definition "f" [] .nil).state, ⟨0⟩, ⟨1⟩, [[]]⟩

/-- Among others, a parameter of type `nil` is found: what the call lacks is the parameter of the call inside it. -/
theorem pair_finds_parameters :
    pair.takesNil = false ∧ pair.ty.parameter? 0 = some (.leaf "x" .nil) ∧
      (lowerExpr (.call "pair" pairArguments pair.ty false .nil default) blank).result =
        .error (.internal (.unknownParameter "drop" 1 0)) ∧
      ∃ arg ∈ pairArguments, ∃ st, (lowerExpr arg st).result = .error (.internal (.unknownParameter "drop" 1 0)) := by
  have hfail : (lowerExpr (.call "pair" pairArguments pair.ty false .nil default) blank).result =
      .error (.internal (.unknownParameter "drop" 1 0)) := by
    with_unfolding_all rfl
  obtain ⟨hparameter, hcall, -⟩ := Signature.call_finds_parameters pair
  exact ⟨rfl, hparameter 0, hfail, hcall rfl "pair" pairArguments false .nil default blank "drop" 1 0 rfl hfail⟩

/-- On its own it is lost, though the call has an argument for it. -/
theorem drop_loses_parameter :
    drop.ty.parameter? 0 ≠ some (.leaf "x" .nil) ∧
      (lowerExpr dropCall blank).result = .error (.internal (.unknownParameter "drop" 1 0)) :=
  ⟨by decide, lowerCall_takesNil rfl "drop" _ .nil default blank⟩

end Sample

end BlockForm
