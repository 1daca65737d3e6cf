import Mathlib.Data.List.Pairwise
import BlockForm.Proofs.MirrorLowering
import BlockForm.Proofs.ProgramMeaning

/-!
# BlockForm.Proofs.Settled — what a run over the items of a module leaves

A pass only adds to the unit: typedefs and literals of the types that occur, and functions (`Proceeds`).  So both
passes leave a unit `F` that has every type and signature of the items, and the definitions as they were made, in units
that `F` has grown from (`settled_of_passes`).  None of this depends on the order of the items (`Settled.of_perm`).
-/

namespace BlockForm

open Action

/-! ## Types that occur in a module -/

/-- The types that occur in a signature. -/
def Signature.types (s : Signature) : List Ty := s.params.map Param.ty ++ s.returnType.toList

/-- The types that occur in an item. -/
def Item.types : Item → List Ty
  | .function f => f.signature.types ++ f.body.types
  | .foreign s => s.types
  | .type t => [t.ty]

theorem Item.types_of_signature? {item : Item} {s : Signature} (h : item.signature? = some s) :
    s.types ⊆ item.types := by
  cases item with
  | type t => cases h
  | function f =>
    cases h
    exact List.subset_append_left _ _
  | foreign s' =>
    cases h
    exact List.Subset.refl _

/-- The types that occur in a module. -/
def Module.types (m : Module) : List Ty := m.items.flatMap Item.types

/-- The items do not declare functions with the same name. -/
def Item.Apart (i j : Item) : Prop :=
  ∀ s, i.signature? = some s → ∀ s', j.signature? = some s' → s.name ≠ s'.name

instance : Std.Symm Item.Apart := ⟨fun _ _ h s hs s' hs' => (h s' hs' s hs).symm⟩

theorem Module.DistinctFunctions.pairwise {m : Module} (hm : m.DistinctFunctions) : m.items.Pairwise Item.Apart := by
  rw [DistinctFunctions, signatures, List.Nodup, List.pairwise_map, List.pairwise_filterMap] at hm
  exact hm

theorem Module.DistinctFunctions.of_perm {m m' : Module} (hm : m.DistinctFunctions) (hp : m.items.Perm m'.items) :
    m'.DistinctFunctions :=
  ((hp.filterMap Item.signature?).map Signature.name).nodup_iff.1 hm

theorem Signature.types_of_params {P : Ty → Prop} {s : Signature} (hs : ∀ ty ∈ s.types, P ty) :
    ∀ p ∈ s.params, P p.ty := fun _ hp => hs _ (List.mem_append_left _ (List.mem_map_of_mem hp))

/-- A signature has a result of the family, or none. -/
theorem Signature.result_cases {P : Ty → Prop} {s : Signature} (hs : ∀ ty ∈ s.types, P ty) :
    P s.result ∨ s.result.elementary? = some .nil := by
  cases hr : s.returnType with
  | none => exact Or.inr (by rw [result, hr]; rfl)
  | some ty => exact Or.inl (hs _ (by simp [types, result, hr]))

namespace CompilationUnit

variable {P : Ty → Prop} {u u' F t : CompilationUnit}

/-! ## What a pass does to a unit -/

/-- One addition to a unit in the course of a pass. -/
inductive Adds (P : Ty → Prop) (u u' : CompilationUnit) : Prop where
  | interned (step : Interns P u u')
  | function {f : Function} {id : FunctionId} (added : Gives (addFunction f) u id u')

/-- Any number of additions. -/
abbrev Proceeds (P : Ty → Prop) : CompilationUnit → CompilationUnit → Prop := Relation.ReflTransGen (Adds P)

theorem Advances.proceeds (h : Advances P u u') : Proceeds P u u' :=
  Relation.ReflTransGen.mono (fun _ _ step => Adds.interned step) _ _ h

namespace Proceeds

theorem typedefs (h : Proceeds P u u') : u.typedefs.entries <+: u'.typedefs.entries := by
  induction h with
  | refl => exact List.prefix_refl _
  | tail _ step ih =>
    cases step with
    | interned step => exact ih.trans step.extends.typedefs
    | function added => exact (addFunction_gives added).2.1 ▸ ih

theorem globals (h : Proceeds P u u') : u.globals.entries <+: u'.globals.entries := by
  induction h with
  | refl => exact List.prefix_refl _
  | tail _ step ih =>
    cases step with
    | interned step => exact ih.trans step.extends.globals
    | function added => exact (addFunction_gives added).2.2 ▸ ih

theorem orderly (h : Proceeds P u u') (hu : Orderly P u) : Orderly P u' := by
  induction h with
  | refl => exact hu
  | tail _ step ih =>
    cases step with
    | interned step => exact ih.interns step
    | function added => exact ih.addFunction added

theorem options (h : Proceeds P u u') : u'.options = u.options := by
  induction h with
  | refl => rfl
  | tail _ step ih =>
    cases step with
    | interned step => exact step.extends.options.trans ih
    | function added =>
      rcases addFunction_cases added with ⟨-, rfl⟩ | ⟨-, -, -, rfl⟩
      · exact ih
      · exact ih

end Proceeds

/-! ## Signatures -/

/-- What a signature lowers to in a unit that has all its types. -/
structure LowersTo (u : CompilationUnit) (s : Signature) (arguments : List LoweredType) (result : LoweredType) :
    Prop where
  arguments : List.Forall₂ (fun p ty => ∃ l, Gives (lowerType p.ty) u l u ∧ ty = l.asArgument) s.params arguments
  result : Gives (lowerType s.result) u result u

theorem LowersTo.matches {s : Signature} {arguments arguments' : List LoweredType} {result result' : LoweredType}
    (h : u.LowersTo s arguments result) (h' : t.LowersTo s arguments' result') :
    List.Forall₂ (LoweredType.Matches u t) arguments arguments' ∧ result.Matches u t result' := by
  refine ⟨forall₂_comp h.arguments.flip h'.arguments ?_, matches_of_lowerType h.result h'.result⟩
  rintro _ p _ ⟨l, hl, rfl⟩ ⟨l', hl', rfl⟩
  exact (matches_of_lowerType hl hl').asArgument

theorem lowerParams_advances (hP : Ty.Family P) {params : List Param} : ∀ {u tys u'}, (∀ p ∈ params, P p.ty) →
    Gives (lowerParams params) u tys u' → Advances P u u' ∧
      List.Forall₂ (fun p ty => ∃ l, Gives (lowerType p.ty) u' l u' ∧ ty = l.asArgument) params tys := by
  induction params with
  | nil =>
    intro u tys u' _ h
    obtain ⟨rfl, rfl⟩ := gives_pure.1 h
    exact ⟨.refl, .nil⟩
  | cons param params ih =>
    intro u tys u' hp h
    simp only [lowerParams, gives_bind, gives_pure] at h
    obtain ⟨l, u₁, h₁, rest, _, h₂, rfl, rfl⟩ := h
    rw [List.forall_mem_cons] at hp
    obtain ⟨hadv, hrest⟩ := ih hp.2 h₂
    exact ⟨(advances_of_lowerType hP hp.1 h₁).trans hadv,
      .cons ⟨l, lowerType_again h₁ hadv.extends.typedefs, rfl⟩ hrest⟩

theorem lowerSignature_advances (hP : Ty.Family P) {s : Signature} (hs : ∀ ty ∈ s.types, P ty)
    {arguments : List LoweredType} {result : LoweredType} (h : Gives (lowerSignature s) u (arguments, result) u') :
    Advances P u u' ∧ u'.LowersTo s arguments result := by
  simp only [lowerSignature, gives_bind, gives_pure] at h
  obtain ⟨args, u₁, h₁, r, u₂, h₂, hp, rfl⟩ := h
  cases hp
  obtain ⟨hadv, hargs⟩ := lowerParams_advances hP (Signature.types_of_params hs) h₁
  have hadv' : Advances P u₁ u₂ := by
    rcases Signature.result_cases hs with hresult | hnil
    · exact advances_of_lowerType hP hresult h₂
    · rcases lowerType_gives h₂ with ⟨_, -, -, rfl⟩ | ⟨hn, -⟩ | ⟨hn, -⟩
      · exact .refl
      · cases hnil.symm.trans hn
      · cases hnil.symm.trans hn
  refine ⟨hadv.trans hadv', hargs.imp fun p ty hl => ?_, lowerType_again h₂ (List.prefix_refl _)⟩
  obtain ⟨l, hl, he⟩ := hl
  exact ⟨l, lowerType_again hl hadv'.extends.typedefs, he⟩

theorem Declares.lowersTo (hP : Ty.Family P) {s : Signature} (hs : ∀ ty ∈ s.types, P ty) (h : u.Declares s) :
    ∃ f, u.function? s.name = some f ∧ u.LowersTo s f.arguments f.returnType := by
  obtain ⟨f, hf, hagain⟩ := h
  exact ⟨f, hf, (lowerSignature_advances hP hs (hagain (List.prefix_refl _))).2⟩

theorem defineFunction_advances (hP : Ty.Family P) {item : FunctionItem} (hb : ∀ ty ∈ item.body.types, P ty)
    {arguments : List LoweredType} {result : LoweredType} {f : Function}
    (h : Gives (defineFunction item arguments result) u f u') : Advances P u u' := by
  obtain ⟨-, entry, endBlock, f₁, s, -, hl, -, rfl⟩ := defineFunction_gives h
  -- Whatever the larger unit is, the run only adds to its own.
  have hF : Whole P (empty "" {}) := ⟨hP, orderly_empty "" {}⟩
  have hmirrors : Mirrors P _ (.of True) .same (Lowering.lowerFunctionBody item) (Lowering.lowerFunctionBody item) :=
    Lowering.mirrors_lowerFunctionBody hF hb
  exact hmirrors.advances hl

/-! ## What the first run leaves -/

theorem proceeds_of_declareItem (hP : Ty.Family P) {item : Item} (hi : ∀ ty ∈ item.types, P ty)
    (h : Gives (declareItem item) u () u') : Proceeds P u u' := by
  have declared : ∀ {s : Signature}, (∀ ty ∈ s.types, P ty) → Gives (declareFunction s) u () u' →
      Proceeds P u u' := by
    intro s hs h
    obtain ⟨arguments, result, u₁, id, h₁, h₂⟩ := declareFunction_gives h
    exact (lowerSignature_advances hP hs h₁).1.proceeds.tail (.function h₂)
  cases item with
  | type t =>
    simp only [declareItem, gives_bind, gives_pure] at h
    obtain ⟨l, _, h, -, rfl⟩ := h
    exact (advances_of_lowerType hP (hi _ (List.mem_singleton_self _)) h).proceeds
  | function f => exact declared (fun ty hty => hi ty (List.mem_append_left _ hty)) h
  | foreign s => exact declared hi h

theorem proceeds_of_lowerItem (hP : Ty.Family P) {item : Item} (hi : ∀ ty ∈ item.types, P ty)
    (h : Gives (lowerItem item) u () u') : Proceeds P u u' := by
  cases item with
  | type t | foreign s =>
    obtain ⟨-, rfl⟩ := gives_pure.1 h
    exact .refl
  | function f =>
    simp only [Item.types, List.forall_mem_append] at hi
    obtain ⟨arguments, result, u₁, d, u₂, id, h₁, h₂, h₃⟩ := lowerFunction_gives h
    have hadv := (lowerSignature_advances hP hi.1 h₁).1.trans (defineFunction_advances hP hi.2 h₂)
    exact (Advances.proceeds hadv).tail (.function h₃)

theorem proceeds_of_pass {step : Item → Interning Unit} {items : List Item}
    (hstep : ∀ {item u u'}, item ∈ items → Gives (step item) u () u' → Proceeds P u u')
    (h : Gives (collectingAll step items) u [] u') : Proceeds P u u' :=
  collectingAll_keeps (P := Proceeds P u) (fun hmem hg hu => hu.trans (hstep hmem hg)) h .refl

/-- Units with functions for the same signatures give them the same types. -/
theorem Announces.upholds {signatures : List Signature} (h : u.Announces signatures) (h' : u'.Announces signatures)
    (ht : u.typedefs.entries <+: u'.typedefs.entries) : u.Upholds u' := by
  refine ⟨ht, fun {name f} hf => ?_⟩
  obtain ⟨s, hs, rfl⟩ := List.mem_map.1 (h.only hf)
  obtain ⟨f₁, hf₁, hagain⟩ := h.declares s hs
  obtain ⟨g, hg, hagain'⟩ := h'.declares s hs
  obtain rfl := Option.some.inj (hf.symm.trans hf₁)
  obtain ⟨hpair, -⟩ := (hagain' (List.prefix_refl _)).unique (hagain ht)
  exact ⟨g, hg, Prod.mk.inj hpair⟩

/-- What a run keeps of an item: the lowered type, the declaration, or the definition that was made on the way. -/
inductive Retains (F : CompilationUnit) : Item → Prop where
  | type {t : TypeItem} {l : LoweredType} (lowered : Gives (lowerType t.ty) F l F) : Retains F (.type t)
  | foreign {s : Signature} {arguments : List LoweredType} {result : LoweredType}
      (declared : F.function? s.name = some (.declaration s.name arguments result)) : Retains F (.foreign s)
  | function {f : FunctionItem} {d : Function} {u u' : CompilationUnit} (stage : F.Stage u')
      (run : Gives (defineFunction f d.arguments d.returnType) u d u') (name : d.name = f.signature.name)
      (defined : F.function? f.signature.name = some d) : Retains F (.function f)

/-- A unit that a run over the items, in some order, has ended in. -/
structure Settled (P : Ty → Prop) (items : List Item) (F : CompilationUnit) : Prop where
  whole : Whole P F
  types : ∀ item ∈ items, ∀ ty ∈ item.types, P ty
  declares : ∀ s ∈ items.filterMap Item.signature?, F.Declares s
  only : ∀ {name f}, F.function? name = some f → name ∈ (items.filterMap Item.signature?).map Signature.name
  retains : ∀ item ∈ items, F.Retains item

theorem Settled.of_perm {items items' : List Item} (h : Settled P items F) (hp : items.Perm items') :
    Settled P items' F where
  whole := h.whole
  types := fun item hi => h.types item (hp.mem_iff.2 hi)
  declares := fun s hs => h.declares s ((hp.filterMap _).mem_iff.2 hs)
  only := fun hf => ((hp.filterMap _).map _).mem_iff.1 (h.only hf)
  retains := fun item hi => h.retains item (hp.mem_iff.2 hi)

/-- The first pass lowers the types. -/
theorem lowerType_of_declaring (hP : Ty.Family P) {items : List Item} (hi : ∀ item ∈ items, ∀ ty ∈ item.types, P ty)
    (h : Gives (collectingAll declareItem items) u [] u') {t : TypeItem} (hmem : Item.type t ∈ items) :
    ∃ l, Gives (lowerType t.ty) u' l u' := by
  obtain ⟨before, after, rfl⟩ := List.append_of_mem hmem
  obtain ⟨v, -, hrest⟩ := collectingAll_append_gives h
  obtain ⟨w, hstep, hafter⟩ := collectingAll_cons_gives.1 hrest
  simp only [declareItem, gives_bind, gives_pure] at hstep
  obtain ⟨l, _, hl, -, rfl⟩ := hstep
  have hproc : Proceeds P _ u' :=
    proceeds_of_pass (fun hm hg => proceeds_of_declareItem hP (hi _ (by simp [hm])) hg) hafter
  exact ⟨l, lowerType_again hl hproc.typedefs⟩

/-- Every function is a declaration. -/
def Bodiless (u : CompilationUnit) : Prop :=
  ∀ name f, u.function? name = some f → ∃ arguments result, f = .declaration name arguments result

theorem Bodiless.of_extends (h : u.Bodiless) (he : u.Extends u') : u'.Bodiless := by
  intro name f hf
  rw [function?, he.functions] at hf
  exact h name f hf

theorem Bodiless.declareFunction (h : u.Bodiless) (hc : u.Closed) {s : Signature}
    (hg : Gives (declareFunction s) u () u') : u'.Bodiless := by
  obtain ⟨arguments, result, u₁, id, h₁, h₂⟩ := declareFunction_gives hg
  intro name f hf
  rw [function?_of_addFunction h₂] at hf
  split at hf
  · next hname =>
    subst hname
    exact ⟨arguments, result, (Option.some.inj hf).symm⟩
  · exact h.of_extends (lowerSignature_gives h₁ hc).1 name f hf

/-- The first pass leaves declarations only. -/
theorem bodiless_of_declaring {items : List Item} {name : String} {options : Options}
    (h : Gives (collectingAll declareItem items) (.empty name options) [] u) : u.Bodiless := by
  have hempty : (empty name options).Bodiless := by
    intro n f hf
    cases hf
  refine (collectingAll_keeps (P := fun u => u.Finished ∧ u.Bodiless)
    (fun {item v v'} _ hg hv => ⟨hv.1.declareItem hg, ?_⟩) h ⟨finished_empty name options, hempty⟩).2
  cases item with
  | type t =>
    simp only [declareItem, gives_bind, gives_pure] at hg
    obtain ⟨l, _, hl, -, rfl⟩ := hg
    exact hv.2.of_extends (extends_of_lowerType hl)
  | function f => exact hv.2.declareFunction hv.1.closed hg
  | foreign s => exact hv.2.declareFunction hv.1.closed hg

/-- The second pass keeps the declarations of functions without a body. -/
theorem function?_of_lowering {m : Module} (hd : m.DistinctFunctions) (hu : u.Announces m.signatures)
    (h : Gives (collectingAll lowerItem m.items) u [] u') {s : Signature} (hmem : Item.foreign s ∈ m.items) :
    u'.function? s.name = u.function? s.name := by
  refine (collectingAll_keeps (P := fun v => v.Announces m.signatures ∧ v.function? s.name = u.function? s.name)
    (fun {item v v'} hi hg hv => ⟨hv.1.lowerItem (mem_signatures hi) hg, ?_⟩) h ⟨hu, rfl⟩).2
  cases item with
  | type t | foreign s' =>
    obtain ⟨-, rfl⟩ := gives_pure.1 hg
    exact hv.2
  | function f =>
    have hapart : (Item.function f).Apart (.foreign s) := hd.pairwise.forall hi hmem nofun
    have hne : ∀ s', (Item.function f).signature? = some s' → s'.name ≠ s.name := fun s' hs' => hapart s' hs' s rfl
    rw [function?_of_lowerItem hv.1.typed.closed hg hne, hv.2]

/-- The second pass makes the definitions, and what it adds after one leaves it in place. -/
theorem retains_of_lowering (hP : Ty.Family P) {m : Module} (hd : m.DistinctFunctions)
    (hi : ∀ item ∈ m.items, ∀ ty ∈ item.types, P ty) (hu : u.Announces m.signatures)
    (h : Gives (collectingAll lowerItem m.items) u [] u') {f : FunctionItem} (hmem : Item.function f ∈ m.items) :
    u'.Retains (.function f) := by
  obtain ⟨before, after, hsplit⟩ := List.append_of_mem hmem
  have hsub : ∀ item ∈ before ++ Item.function f :: after, item ∈ m.items := fun item => by rw [hsplit]; exact id
  have hother : ∀ item ∈ after, ∀ s, item.signature? = some s → s.name ≠ f.signature.name := by
    have hpair := hd.pairwise
    rw [hsplit, List.pairwise_append, List.pairwise_cons] at hpair
    exact fun item hitem s hs => (hpair.2.1.1 item hitem f.signature rfl s hs).symm
  rw [hsplit] at h
  obtain ⟨v, hbefore, hrest⟩ := collectingAll_append_gives h
  obtain ⟨w, hstep, hafter⟩ := collectingAll_cons_gives.1 hrest
  have hv : v.Announces m.signatures := collectingAll_keeps
    (fun hm hg hk => Announces.lowerItem hk (mem_signatures (hsub _ (List.mem_append_left _ hm))) hg) hbefore hu
  have hw := hv.lowerItem (mem_signatures hmem) hstep
  obtain ⟨arguments, result, u₁, d, u₂, id, h₁, h₂, h₃⟩ := lowerFunction_gives hstep
  obtain ⟨he, hc, ha, hr, -⟩ := lowerSignature_gives h₁ hv.typed.closed
  obtain ⟨g, hdone, rfl, rfl, he', hname, rfl, rfl⟩ := defineFunction_done hc ha hr h₂
  have hmade := (hv.of_extends he hc).of_extends he' hdone.sound.closed
  have hdefined : w.function? f.signature.name = some g.state.function := by
    rw [function?_of_addFunction h₃, if_pos hname.symm]
  have hend := collectingAll_keeps (P := fun x => x.Announces m.signatures ∧
      x.function? f.signature.name = some g.state.function) (fun {item x y} hm hg hx => by
    have hitem := hsub item (List.mem_append_right _ (List.mem_cons_of_mem _ hm))
    refine ⟨hx.1.lowerItem (mem_signatures hitem) hg, ?_⟩
    rw [function?_of_lowerItem hx.1.typed.closed hg (hother item hm), hx.2]) hafter ⟨hw, hdefined⟩
  have hproc : Proceeds P g.state.unit u' := Relation.ReflTransGen.head (.function h₃) <|
    proceeds_of_pass (fun hm hg => proceeds_of_lowerItem hP
      (hi _ (hsub _ (List.mem_append_right _ (List.mem_cons_of_mem _ hm)))) hg) hafter
  exact .function ⟨hmade.upholds hend.1 hproc.typedefs, hproc.globals⟩ h₂ hname hend.2

/-- **Both passes settle the items.** -/
theorem settled_of_passes (hP : Ty.Family P) {m : Module} (hd : m.DistinctFunctions)
    (hi : ∀ item ∈ m.items, ∀ ty ∈ item.types, P ty) {name : String} {options : Options}
    (h₁ : Gives (collectingAll declareItem m.items) (.empty name options) [] u)
    (h₂ : Gives (collectingAll lowerItem m.items) u [] u') : Settled P m.items u' ∧ u'.options = options := by
  have hu := announces_of_module hd h₁
  have hu' : u'.Announces m.signatures :=
    collectingAll_keeps (fun hm hg hk => Announces.lowerItem hk (mem_signatures hm) hg) h₂ hu
  have hproc₁ : Proceeds P (.empty name options) u :=
    proceeds_of_pass (fun hm hg => proceeds_of_declareItem hP (hi _ hm) hg) h₁
  have hproc₂ : Proceeds P u u' := proceeds_of_pass (fun hm hg => proceeds_of_lowerItem hP (hi _ hm) hg) h₂
  have hproc := hproc₁.trans hproc₂
  refine ⟨⟨⟨hP, Proceeds.orderly hproc (orderly_empty name options)⟩, hi, hu'.declares, hu'.only, ?_⟩,
    Proceeds.options hproc⟩
  intro item hitem
  cases item with
  | type t =>
    obtain ⟨l, hl⟩ := lowerType_of_declaring hP hi h₁ hitem
    exact .type (lowerType_again hl (Proceeds.typedefs hproc₂))
  | foreign s =>
    obtain ⟨f, hf, -⟩ := hu.declares s (mem_signatures hitem s rfl)
    obtain ⟨arguments, result, rfl⟩ := bodiless_of_declaring h₁ _ _ hf
    exact .foreign ((function?_of_lowering hd hu h₂ hitem).trans hf)
  | function f => exact retains_of_lowering hP hd hi hu h₂ hitem

end CompilationUnit

end BlockForm
