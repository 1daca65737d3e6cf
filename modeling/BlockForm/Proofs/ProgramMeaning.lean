import BlockForm.Proofs.FunctionMeaning
import BlockForm.Proofs.Soundness

/-!
# BlockForm.Proofs.ProgramMeaning — lowering keeps the meaning of scalar programs

Every function of a scalar module runs to the return of its end block, with the value and the calls that evaluating
its syntax tree gives (`Module.lower_keeps_meaning`).  What evaluation takes from the signatures of the module,
lowering takes from the functions of the unit: `Announces` says that these are the same.
-/

namespace BlockForm

open Action

variable {V : Type}

namespace CompilationUnit

variable {u u' : CompilationUnit}

/-! ## Signatures -/

theorem lowerType_of_elementary? {ty : Ty} {e : Elementary} (he : ty.elementary? = some e) {t : LoweredType}
    (h : Gives (lowerType ty) u t u') : t = .elementary e := by
  rcases lowerType_gives h with ⟨e', he', rfl, -⟩ | ⟨hn, -⟩ | ⟨hn, -⟩
  · rw [he] at he'
    cases he'
    rfl
  · simp [he] at hn
  · simp [he] at hn

theorem lowerParams_of_scalar {params : List Param} : ∀ {u tys},
    (∀ p ∈ params, p.ty.elementary?.any Elementary.isDiscrete) → Gives (lowerParams params) u tys u' →
    ∃ es, params.mapM (fun p => p.ty.elementary?) = some es ∧ tys = es.map .elementary ∧
      List.Forall₂ (fun p e => p.ty.elementary? = some e ∧ e.isDiscrete = true) params es := by
  induction params with
  | nil =>
    intro u tys _ h
    simp only [lowerParams, gives_pure] at h
    obtain ⟨rfl, rfl⟩ := h
    exact ⟨[], rfl, rfl, .nil⟩
  | cons param params ih =>
    intro u tys hp h
    simp only [lowerParams, gives_bind, gives_pure] at h
    obtain ⟨ty, u₁, h₁, rest, _, h₂, rfl, rfl⟩ := h
    obtain ⟨e, he, hd⟩ := (Option.any_eq_true _ _).1 (hp param (List.mem_cons_self ..))
    obtain ⟨es, hes, rfl, hall⟩ := ih (fun p hm => hp p (List.mem_cons_of_mem _ hm)) h₂
    obtain rfl := lowerType_of_elementary? he h₁
    exact ⟨e :: es, by simp [he, hes], rfl, .cons ⟨he, hd⟩ hall⟩

/-- A scalar signature is lowered to the types that evaluation sees. -/
theorem lowerSignature_of_scalar {s : Signature} (hs : s.isScalar = true) {arguments : List LoweredType}
    {result : LoweredType} (h : Gives (lowerSignature s) u (arguments, result) u') :
    ∃ es e, s.elementary? = some (es, e) ∧ arguments = es.map .elementary ∧ result = .elementary e ∧
      s.result.elementary? = some e ∧ (e ≠ .nil → e.isDiscrete = true) ∧
      List.Forall₂ (fun p e => p.ty.elementary? = some e ∧ e.isDiscrete = true) s.params es := by
  simp only [Signature.isScalar, Bool.and_eq_true, List.all_eq_true] at hs
  simp only [lowerSignature, gives_bind, gives_pure] at h
  obtain ⟨args, u₁, h₁, r, _, h₂, hp, rfl⟩ := h
  cases hp
  obtain ⟨es, hes, rfl, hall⟩ := lowerParams_of_scalar hs.1 h₁
  obtain ⟨e, he, hd⟩ := (Option.any_eq_true _ _).1 hs.2
  obtain rfl := lowerType_of_elementary? he h₂
  refine ⟨es, e, by simp [Signature.elementary?, hes, he], rfl, rfl, he, fun hne => ?_, hall⟩
  simpa [hne] using hd

/-- Lowering sees the functions that evaluation sees. -/
theorem Announces.suits {m : Module} (hu : u.Announces m.signatures) (hm : m.signatures.all Signature.isScalar = true)
    {I : Interpretation V} (hI : I.Lawful) {result : Elementary} (hd : result ≠ .nil → result.isDiscrete = true)
    (f : Function) (args : List V) : Evaluator.Suits ⟨I, m.callee?, result⟩ ⟨I, f, args⟩ u := by
  refine ⟨rfl, hI, fun {name g} hg => ?_, hd⟩
  obtain ⟨s₀, hs₀, hname₀⟩ := List.mem_map.1 (hu.only hg)
  cases hfind : m.signatures.find? fun s => s.name == name with
  | none => exact absurd (beq_iff_eq.2 hname₀) (List.find?_eq_none.1 hfind s₀ hs₀)
  | some s =>
    have hmem := List.mem_of_find?_eq_some hfind
    obtain rfl : s.name = name := by simpa using List.find?_some hfind
    obtain ⟨g', hg', hagain⟩ := hu.declares s hmem
    obtain rfl := Option.some.inj (hg.symm.trans hg')
    obtain ⟨es, e, hel, harg, hret, -, hde, hall⟩ :=
      lowerSignature_of_scalar (List.all_eq_true.1 hm s hmem) (hagain (List.prefix_refl _))
    refine ⟨es, e, by simp [Module.callee?, hfind, hel], harg, hret, fun t ht => ?_, hde⟩
    obtain ⟨k, hk, rfl⟩ := List.mem_iff_getElem.1 ht
    exact (hall.get (hall.length_eq ▸ hk) hk).2

/-! ## Arguments -/

/-- The value of an argument stands for what the machine is run on. -/
theorem takes_of_fresh {f : Function} {es : List Elementary} {M : Machine V}
    (hf : f.Fresh (es.map .elementary)) (hF : f.opened.Grows M.function) {k : Nat} {e : Elementary} {v : V}
    (he : es[k]? = some e) (hd : e.isDiscrete = true) (hv : M.arguments[k]? = some v) : M.Takes f.opened k e v := by
  have hel : (es.map LoweredType.elementary)[k]? = some (.elementary e) := by simp [he]
  obtain ⟨w, x, hw, hx, hk, hty⟩ := hf.argument hel
  have hx₁ : f.opened.value? w = some x := Function.Fresh.value?_opened hx
  have hx₂ := hF.value? hx₁
  refine ⟨w, hw, fun c => ⟨⟨x, hx₁, by simp [hk]⟩, ?_, ?_, ?_, hd, nofun⟩⟩
  · simp [Function.valueType?, hx₂, hty]
  · simp [Machine.datum, hx₂, hk, hv]
  · simp [Function.constant?, hx₂, Value.constant?, hk]

/-! ## The second pass -/

/-- An item puts nothing in the place of a function with another name. -/
theorem function?_of_lowerItem {item : Item} (hu : u.Closed) (h : Gives (lowerItem item) u () u') {name : String}
    (hn : ∀ s, item.signature? = some s → s.name ≠ name) : u'.function? name = u.function? name := by
  cases item with
  | type t | foreign s =>
    obtain ⟨-, rfl⟩ := gives_pure.1 h
    rfl
  | function f =>
    obtain ⟨arguments, result, u₁, d, u₂, id, h₁, h₂, h₃⟩ := lowerFunction_gives h
    obtain ⟨he, hc, ha, hr, -⟩ := lowerSignature_gives h₁ hu
    obtain ⟨g, -, rfl, rfl, he', hname, -⟩ := defineFunction_done hc ha hr h₂
    rw [function?_of_addFunction h₃, hname, if_neg (hn f.signature rfl).symm, function?, function?, he'.functions,
      he.functions]

theorem Announces.lowerItem {signatures : List Signature} (h : u.Announces signatures) {item : Item}
    (hs : ∀ s, item.signature? = some s → s ∈ signatures) (hg : Gives (lowerItem item) u () u') :
    u'.Announces signatures := by
  refine ⟨h.toKeeps.lowerItem hs hg, fun {name f} hf => ?_⟩
  by_contra hn
  have hother : ∀ s, item.signature? = some s → s.name ≠ name := by
    rintro s hsig rfl
    exact hn (List.mem_map_of_mem (hs s hsig))
  rw [function?_of_lowerItem h.typed.closed hg hother] at hf
  exact hn (h.only hf)

end CompilationUnit

/-- On all arguments, the function returns what evaluating the item gives. -/
def Module.Realizes (m : Module) (item : FunctionItem) (f : Function) : Prop :=
  ∀ {V : Type} {I : Interpretation V} {args : List V}, I.Lawful → args.length = item.signature.params.length →
    ∃ value calls, m.evaluate I item args = some (value, calls) ∧ Machine.Returns ⟨I, f, args⟩ value calls

namespace CompilationUnit

variable {u u' : CompilationUnit}

/-- **The definition that an item leaves returns what evaluating the item gives.** -/
theorem lowerItem_realizes {m : Module} (hm : m.isScalar = true) (hu : u.Announces m.signatures) {item : FunctionItem}
    (hitem : Item.function item ∈ m.items) (h : Gives (lowerItem (.function item)) u () u') :
    ∃ f, u'.function? item.signature.name = some f ∧ m.Realizes item f := by
  rw [Module.isScalar, Bool.and_eq_true] at hm
  obtain ⟨arguments, result, u₁, d, u₂, id, h₁, h₂, h₃⟩ := lowerFunction_gives h
  obtain ⟨he, hc, ha, hr, -⟩ := lowerSignature_gives h₁ hu.typed.closed
  have hs := List.all_eq_true.1 hm.1 item.signature (mem_signatures hitem _ rfl)
  obtain ⟨es, e, -, rfl, rfl, hel, hde, hall⟩ := lowerSignature_of_scalar hs h₁
  obtain ⟨f, g₁, g₂, g₃, g₄, g, hcourse, rfl, rfl, hext, hgrow, hf, hname, -, hret⟩ :=
    defineFunction_course hc ha hr h₂
  have hgrow' := hgrow.trans hcourse.trace.function_grows
  refine ⟨g.state.function, by rw [function?_of_addFunction h₃, if_pos (hgrow'.name.trans hname).symm], ?_⟩
  intro V I args hI hlen
  have hS := ((hu.of_extends he hc).suits hm.1 hI hde g.state.function args).of_extends hext
  obtain ⟨env, flow, calls, hbind, ev, hreturns⟩ := Machine.course_returns (M := ⟨I, g.state.function, args⟩)
    (E := ⟨I, m.callee?, e⟩) hcourse rfl hf hret hgrow hS (List.all_eq_true.1 hm.2 _ hitem) hlen fun k p v hp hv => by
      obtain ⟨hk, rfl⟩ := List.getElem?_eq_some_iff.1 hp
      obtain ⟨hel, hd⟩ := hall.get hk (hall.length_eq ▸ hk)
      have hes := List.getElem?_eq_getElem (l := es) (hall.length_eq ▸ hk)
      exact ⟨_, hel, (takes_of_fresh hf hgrow' hes hd hv).mono hgrow hgrow'⟩
  exact ⟨_, calls, by simp [Module.evaluate, hel, hbind, ev], hreturns⟩

/-- The definitions that the second pass leaves return what evaluating their items gives. -/
theorem realizes_of_passes {m : Module} (hd : m.DistinctFunctions) (hm : m.isScalar = true) {name : String}
    {options : Options} (h₁ : Gives (collectingAll CompilationUnit.declareItem m.items) (.empty name options) [] u)
    (h₂ : Gives (collectingAll CompilationUnit.lowerItem m.items) u [] u') {item : FunctionItem}
    (hitem : Item.function item ∈ m.items) : ∃ f, u'.function? item.signature.name = some f ∧ m.Realizes item f := by
  have keeps : ∀ {it v v'}, it ∈ m.items → Gives (CompilationUnit.lowerItem it) v () v' →
      v.Announces m.signatures → v'.Announces m.signatures := fun hmem hg hv => hv.lowerItem (mem_signatures hmem) hg
  obtain ⟨before, after, hsplit⟩ := List.append_of_mem hitem
  have hother : ∀ it ∈ after, ∀ s, it.signature? = some s → s.name ≠ item.signature.name := by
    rw [Module.DistinctFunctions, Module.signatures, hsplit, List.filterMap_append, List.map_append,
      List.nodup_append] at hd
    have hfirst : (Item.function item).signature? = some item.signature := rfl
    rw [List.filterMap_cons_some hfirst, List.map_cons, List.nodup_cons] at hd
    intro it hit s hs hname
    refine hd.2.1.1 (List.mem_map.2 ⟨s, ?_, hname⟩)
    exact List.mem_filterMap.2 ⟨it, hit, hs⟩
  have hsub : ∀ it ∈ after, it ∈ m.items := fun it hit => by simp [hsplit, hit]
  rw [hsplit] at h₂
  obtain ⟨v, hbefore, hrest⟩ := collectingAll_append_gives h₂
  obtain ⟨w, hstep, hafter⟩ := collectingAll_cons_gives.1 hrest
  have hv : v.Announces m.signatures := collectingAll_keeps (fun hmem hg hk => keeps (by simp [hsplit, hmem]) hg hk)
    hbefore (announces_of_module hd h₁)
  obtain ⟨f, hf, hreal⟩ := lowerItem_realizes hm hv hitem hstep
  have hw : w.Announces m.signatures ∧ w.function? item.signature.name = some f := ⟨keeps hitem hstep hv, hf⟩
  have hu' := collectingAll_keeps (P := fun x => x.Announces m.signatures ∧ x.function? item.signature.name = some f)
    (fun {it x y} hmem hg hx => by
      refine ⟨keeps (hsub it hmem) hg hx.1, ?_⟩
      rw [function?_of_lowerItem hx.1.typed.closed hg (hother it hmem), hx.2]) hafter hw
  exact ⟨f, hu'.2, hreal⟩

end CompilationUnit

/-- **Lowering keeps the meaning of scalar programs.**  For every function of a scalar module, on all arguments, under
all meanings of the operations that take constants to their retyped constants, and whatever calls answer: evaluating
the syntax tree gives a value after some calls, and the run of the lowered blocks comes to the return of the end block
with exactly this value after exactly these calls. -/
theorem Module.lower_keeps_meaning {m : Module} {options : Options} {u : CompilationUnit} (hd : m.DistinctFunctions)
    (hm : m.isScalar = true) (h : m.lower options = .ok u) {item : FunctionItem}
    (hitem : Item.function item ∈ m.items) {I : Interpretation V} (hI : I.Lawful) {args : List V}
    (hargs : args.length = item.signature.params.length) :
    ∃ f value calls, u.function? item.signature.name = some f ∧ m.evaluate I item args = some (value, calls) ∧
      ∀ value' calls', Machine.Returns ⟨I, f, args⟩ value' calls' ↔ value' = value ∧ calls' = calls := by
  obtain ⟨u₁, h₁, h₂⟩ := CompilationUnit.lowerProgram_gives (Module.lower_gives h)
  obtain ⟨f, hf, hreal⟩ := CompilationUnit.realizes_of_passes hd hm h₁ h₂ hitem
  obtain ⟨value, calls, hev, hret⟩ := hreal hI hargs
  refine ⟨f, value, calls, hf, hev, fun value' calls' => ⟨fun h' => hret.unique h', ?_⟩⟩
  rintro ⟨rfl, rfl⟩
  exact hret

namespace Sample

/-- Whole numbers without bounds, with truth values as zero and one.  A call answers the sum of its arguments and the
number of calls before it. -/
def integers : Interpretation Int where
  constant
    | .int v, _ => v.toInt
    | .bool b, _ => b.toInt
    | .float _, _ => 0
  arith
    | .add, _, a, b => a + b
    | .sub, _, a, b => a - b
    | .mul, _, a, b => a * b
    | .div, _, a, b => a / b
  cmp
    | .eq, _, a, b => (a == b).toInt
    | .ne, _, a, b => (a != b).toInt
    | .lt, _, a, b => (decide (a < b)).toInt
    | .le, _, a, b => (decide (a ≤ b)).toInt
    | .gt, _, a, b => (decide (a > b)).toInt
    | .ge, _, a, b => (decide (a ≥ b)).toInt
  logic
    | .and, a, b => a * b
    | .or, a, b => a + b
  convert _ _ v := v
  holds v := v != 0
  blank _ := 0
  answer n _ args := args.foldl (· + ·) n

theorem integers_lawful : integers.Lawful := by
  intro c c' source target _ htarget _ hc'
  cases c with
  | int v =>
    simp only [Constant.retyped?] at hc'
    split at hc'
    · split at hc'
      · cases hc'
        rfl
      · cases hc'
    · -- a number of a floating point type is not discrete
      split at hc'
      · cases target <;> simp_all [Elementary.isDiscrete, Elementary.isFloat, Elementary.isInteger]
      · cases hc'
  | float v =>
    simp only [Constant.retyped?] at hc'
    split at hc'
    · cases hc'
      rfl
    · cases hc'
  | bool b =>
    simp only [Constant.retyped?] at hc'
    split at hc'
    · cases hc'
      rfl
    · cases hc'

/-- Run on 5, the function makes one call, whose second argument is a retyped constant, and returns 5 + 7 + 1. -/
theorem start_keeps_meaning :
    program.DistinctFunctions ∧ program.isScalar = true ∧ integers.Lawful ∧
      program.evaluate integers start [5] = some (some 13, [⟨"smaller", [5, 7]⟩]) ∧
      ∃ f, lowered.function? "start" = some f ∧
        Machine.Returns ⟨integers, f, [5]⟩ (some 13) [⟨"smaller", [5, 7]⟩] := by
  have hd : program.DistinctFunctions := by decide
  have hm : program.isScalar = true := rfl
  have hev : program.evaluate integers start [5] = some (some 13, [⟨"smaller", [5, 7]⟩]) := rfl
  have hitem : Item.function start ∈ program.items := List.mem_cons_of_mem _ (List.mem_singleton_self _)
  have hargs : ([5] : List Int).length = start.signature.params.length := rfl
  obtain ⟨f, value, calls, hf, hev', hret⟩ :=
    Module.lower_keeps_meaning hd hm lower_program hitem integers_lawful hargs
  obtain ⟨rfl, rfl⟩ := Prod.mk.inj (Option.some.inj (hev.symm.trans hev'))
  exact ⟨hd, hm, integers_lawful, hev, f, hf, (hret _ _).2 ⟨rfl, rfl⟩⟩

end Sample

end BlockForm
