import BlockForm.Proofs.Bodies

/-!
# BlockForm.Proofs.Program — both passes over a module

A successful run is one in which every item succeeds (`lowerProgram_gives`).  The first pass leaves declarations, the
second puts a definition in the place of each declared function that has a body; whatever it puts there is the
function of a site that is `Done` (`finished_of_passes`).
-/

namespace BlockForm

open Action

/-- A result that is only replaced was one. -/
theorem except_map_eq_ok {ε α : Type} {x : Except ε Unit} {a b : α} :
    x.map (fun _ => a) = .ok b ↔ x = .ok () ∧ a = b := by
  cases x <;> simp [Except.map]

namespace CompilationUnit

variable {u u' u'' : CompilationUnit}

/-! ## Signatures -/

theorem lowerParams_gives {params : List Param} : ∀ {u tys u'}, Gives (lowerParams params) u tys u' → u.Closed →
    u.Extends u' ∧ u'.Closed ∧ (∀ ty ∈ tys, u'.Knows ty) ∧
      ∀ {v : CompilationUnit}, u'.typedefs.entries <+: v.typedefs.entries → Gives (lowerParams params) v tys v := by
  induction params with
  | nil =>
    intro u tys u' h hu
    simp only [lowerParams, gives_pure] at h
    obtain ⟨rfl, rfl⟩ := h
    exact ⟨.refl u, hu, by simp, fun _ => by simp [lowerParams]⟩
  | cons param params ih =>
    intro u tys u' h hu
    simp only [lowerParams, gives_bind, gives_pure] at h
    obtain ⟨ty, u₁, h₁, rest, _, h₂, rfl, rfl⟩ := h
    obtain ⟨he, hc, hk, hagain⟩ := ih h₂ (hu.lowerType h₁)
    refine ⟨(extends_of_lowerType h₁).trans he, hc, ?_, fun {v} hv => ?_⟩
    · intro t ht
      rcases List.mem_cons.1 ht with rfl | ht
      · exact ((lowerType_knows h₁).mono he.typedefs_size_le).asArgument
      · exact hk t ht
    · simp only [lowerParams, gives_bind, gives_pure]
      exact ⟨ty, v, lowerType_again h₁ (he.typedefs.trans hv), rest, v, hagain hv, rfl, rfl⟩

/-- **A signature is lowered alike in every later unit**, which it does not change. -/
theorem lowerSignature_gives {s : Signature} {arguments : List LoweredType} {result : LoweredType}
    (h : Gives (lowerSignature s) u (arguments, result) u') (hu : u.Closed) :
    u.Extends u' ∧ u'.Closed ∧ (∀ ty ∈ arguments, u'.Knows ty) ∧ u'.Knows result ∧
      ∀ {v : CompilationUnit}, u'.typedefs.entries <+: v.typedefs.entries →
        Gives (lowerSignature s) v (arguments, result) v := by
  simp only [lowerSignature, gives_bind, gives_pure] at h
  obtain ⟨args, u₁, h₁, r, _, h₂, hp, rfl⟩ := h
  cases hp
  obtain ⟨he, hc, hk, hagain⟩ := lowerParams_gives h₁ hu
  have he' := extends_of_lowerType h₂
  refine ⟨he.trans he', hc.lowerType h₂, fun ty hty => (hk ty hty).mono he'.typedefs_size_le, lowerType_knows h₂, ?_⟩
  intro v hv
  simp only [lowerSignature, gives_bind, gives_pure]
  exact ⟨arguments, v, hagain (he'.typedefs.trans hv), result, v, lowerType_again h₂ hv, rfl, rfl⟩

/-! ## Functions of the unit -/

theorem addFunction_gives {f : Function} {id : FunctionId} (h : Gives (addFunction f) u id u') :
    u'.functions = u.functions.insert f.name f ∧ u'.typedefs = u.typedefs ∧ u'.globals = u.globals := by
  simp only [addFunction, gives_get_bind] at h
  cases hi : u.functions.indexOf? f.name with
  | some i =>
    rw [hi] at h
    simp only [gives_bind, gives_set, gives_handle] at h
    obtain ⟨_, _, rfl, -, -, rfl⟩ := h
    exact ⟨rfl, rfl, rfl⟩
  | none =>
    rw [hi] at h
    simp only [gives_handle_bind, gives_bind (x := bindName _ _), bindName_gives, gives_modify_bind, gives_pure] at h
    obtain ⟨-, _, _, ⟨-, rfl⟩, -, rfl⟩ := h
    exact ⟨rfl, rfl, rfl⟩

theorem function?_of_addFunction {f : Function} {id : FunctionId} (h : Gives (addFunction f) u id u')
    (name : String) : u'.function? name = if name = f.name then some f else u.function? name := by
  rw [function?, (addFunction_gives h).1, Table.get?_insert]
  rfl

theorem Closed.addFunction (hu : u.Closed) {f : Function} (ha : ∀ ty ∈ f.arguments, u.Knows ty)
    (hr : u.Knows f.returnType) {id : FunctionId} (h : Gives (addFunction f) u id u') : u'.Closed := by
  obtain ⟨-, ht, hg⟩ := addFunction_gives h
  have hknows : ∀ {ty}, u.Knows ty → u'.Knows ty := fun hk => hk.mono (by rw [ht])
  refine ⟨?_, ?_, ?_⟩
  · intro t htd m hm
    rw [ht] at htd
    exact hknows (hu.members t htd m hm)
  · intro name g hg'
    rw [function?_of_addFunction h] at hg'
    split at hg'
    · cases hg'
      exact ⟨fun ty hty => hknows (ha ty hty), hknows hr⟩
    · obtain ⟨hga, hgr⟩ := hu.signatures hg'
      exact ⟨fun ty hty => hknows (hga ty hty), hknows hgr⟩
  · intro l hl
    rw [hg] at hl
    exact hknows (hu.globals l hl)

/-! ## Definitions -/

theorem defineFunction_gives {item : FunctionItem} {arguments : List LoweredType} {result : LoweredType}
    {f : Function} (h : Gives (defineFunction item arguments result) u f u') :
    (Function.definition item.signature.name arguments result).result = .ok () ∧
      ∃ entry endBlock f₁ s', Gives Function.openBody
          (Function.definition item.signature.name arguments result).state (entry, endBlock) f₁ ∧
        Gives (Lowering.lowerFunctionBody item) ⟨u, f₁, entry, endBlock, [[]]⟩ () s' ∧
        s'.function = f ∧ s'.unit = u' := by
  obtain ⟨hres, hst⟩ := h
  unfold defineFunction at hres hst
  dsimp only at hres hst
  cases hd : (Function.definition item.signature.name arguments result).result with
  | error e => simp [hd] at hres
  | ok a =>
    refine ⟨rfl, ?_⟩
    simp only [hd] at hres hst
    cases ho : (Function.openBody (Function.definition item.signature.name arguments result).state).result with
    | error e => simp [ho] at hres
    | ok p =>
      obtain ⟨entry, endBlock⟩ := p
      simp only [ho] at hres hst
      obtain ⟨hl, hf⟩ := except_map_eq_ok.1 hres
      exact ⟨entry, endBlock, _, _, ⟨ho, rfl⟩, ⟨hl, rfl⟩, hf, hst⟩

/-- A definition is lowered along a course, from a function that has the values of its arguments. -/
theorem defineFunction_course {item : FunctionItem} {arguments : List LoweredType} {result : LoweredType}
    {d : Function} (hu : u.Closed) (ha : ∀ ty ∈ arguments, u.Knows ty) (hr : u.Knows result)
    (h : Gives (defineFunction item arguments result) u d u') :
    ∃ (f : Function) (g₁ g₂ g₃ g₄ g : Site), Site.Course item ⟨u, f.opened, ⟨0⟩, ⟨1⟩, [[]]⟩ g₁ g₂ g₃ g₄ g ∧
      g.state.function = d ∧ g.state.unit = u' ∧ u.Extends g₁.state.unit ∧ f.opened.Grows g₁.state.function ∧
      f.Fresh arguments ∧ f.name = item.signature.name ∧ f.arguments = arguments ∧ f.returnType = result := by
  obtain ⟨hd, entry, endBlock, f₁, s', ho, hl, rfl, rfl⟩ := defineFunction_gives h
  obtain ⟨hf, hn, hfa, hfr⟩ := Function.fresh_definition hd
  obtain ⟨rfl, rfl, rfl⟩ := Function.openBody_gives hf ho
  obtain ⟨g₁, g₂, g₃, g₄, g, rfl, hcourse, hext, hgrow⟩ := Site.lowerFunctionBody_course (by rw [hfa]; exact hf) hu
    (by rw [hfa]; exact ha) (by rw [hfr]; exact hr) hl
  exact ⟨_, g₁, g₂, g₃, g₄, g, hcourse, rfl, rfl, hext, hgrow, hf, hn, hfa, hfr⟩

/-- A definition is the function of a completed site, with the signature it was asked for. -/
theorem defineFunction_done {item : FunctionItem} {arguments : List LoweredType} {result : LoweredType}
    {f : Function} (hu : u.Closed) (ha : ∀ ty ∈ arguments, u.Knows ty) (hr : u.Knows result)
    (h : Gives (defineFunction item arguments result) u f u') :
    ∃ g : Site, g.Done ∧ g.state.function = f ∧ g.state.unit = u' ∧ u.Extends u' ∧
      f.name = item.signature.name ∧ f.arguments = arguments ∧ f.returnType = result := by
  obtain ⟨f₀, g₁, _, _, _, g, hcourse, rfl, rfl, hext, hgrow₁, -, hn, hfa, hfr⟩ := defineFunction_course hu ha hr h
  have hgrow := hgrow₁.trans hcourse.trace.function_grows
  exact ⟨g, hcourse.done, rfl, rfl, hext.trans hcourse.trace.unit_extends, hgrow.name.trans hn,
    hgrow.arguments.trans hfa, hgrow.returnType.trans hfr⟩

/-! ## Passes -/

theorem collecting_gives {x : Interning Unit} : Gives (collecting x) u [] u' ↔ Gives x u () u' := by
  unfold Gives collecting
  rcases x u with ⟨_ | a, v, log⟩
  · dsimp only
    split <;> simp
  · simp

/-- A pass collects no error if every item succeeds. -/
theorem collectingAll_cons_gives {step : Item → Interning Unit} {item : Item} {items : List Item} :
    Gives (collectingAll step (item :: items)) u [] u' ↔
      ∃ v, Gives (step item) u () v ∧ Gives (collectingAll step items) v [] u' := by
  simp only [collectingAll, gives_bind, gives_pure, List.append_eq_nil_iff]
  constructor
  · rintro ⟨_, v, h₁, _, _, h₂, ⟨rfl, rfl⟩, rfl⟩
    exact ⟨v, collecting_gives.1 h₁, h₂⟩
  · rintro ⟨v, h₁, h₂⟩
    exact ⟨[], v, collecting_gives.2 h₁, [], u', h₂, ⟨rfl, rfl⟩, rfl⟩

/-- What every item keeps, a pass without errors keeps. -/
theorem collectingAll_keeps {step : Item → Interning Unit} {P : CompilationUnit → Prop} {items : List Item}
    (hstep : ∀ {item u u'}, item ∈ items → Gives (step item) u () u' → P u → P u') :
    ∀ {u}, Gives (collectingAll step items) u [] u' → P u → P u' := by
  induction items with
  | nil =>
    intro u h hu
    obtain ⟨-, rfl⟩ := gives_pure.1 h
    exact hu
  | cons item items ih =>
    intro u h hu
    obtain ⟨v, h₁, h₂⟩ := collectingAll_cons_gives.1 h
    exact ih (fun hm => hstep (List.mem_cons_of_mem _ hm)) h₂ (hstep (List.mem_cons_self ..) h₁ hu)

theorem collectingAll_append_gives {step : Item → Interning Unit} {items rest : List Item} :
    ∀ {u}, Gives (collectingAll step (items ++ rest)) u [] u' →
      ∃ v, Gives (collectingAll step items) u [] v ∧ Gives (collectingAll step rest) v [] u' := by
  induction items with
  | nil => exact fun {u} h => ⟨u, gives_pure.2 ⟨rfl, rfl⟩, h⟩
  | cons item items ih =>
    intro u h
    obtain ⟨v, h₁, h₂⟩ := collectingAll_cons_gives.1 h
    obtain ⟨w, h₂, h₃⟩ := ih h₂
    exact ⟨w, collectingAll_cons_gives.2 ⟨v, h₁, h₂⟩, h₃⟩

/-- The functions of a unit are declarations or complete definitions. -/
structure Finished (u : CompilationUnit) : Prop where
  closed : u.Closed
  functions : ∀ f ∈ u.functions.values, f.isDeclaration = true ∨ ∃ g : Site, g.Done ∧ g.state.function = f

theorem Finished.of_extends (h : u.Finished) (he : u.Extends u') (hc : u'.Closed) : u'.Finished :=
  ⟨hc, by rw [he.functions]; exact h.functions⟩

theorem Finished.addFunction (h : u.Finished) {f : Function} (ha : ∀ ty ∈ f.arguments, u.Knows ty)
    (hr : u.Knows f.returnType) (hf : f.isDeclaration = true ∨ ∃ g : Site, g.Done ∧ g.state.function = f)
    {id : FunctionId} (hadd : Gives (addFunction f) u id u') : u'.Finished := by
  refine ⟨h.closed.addFunction ha hr hadd, fun f' hf' => ?_⟩
  rw [(addFunction_gives hadd).1] at hf'
  rcases Table.mem_values_insert hf' with rfl | hf'
  · exact hf
  · exact h.functions f' hf'

theorem declareFunction_gives {s : Signature} {a : Unit} (h : Gives (declareFunction s) u a u') :
    ∃ arguments result u₁ id, Gives (lowerSignature s) u (arguments, result) u₁ ∧
      Gives (addFunction (.declaration s.name arguments result)) u₁ id u' := by
  simp only [declareFunction, gives_bind, gives_pure] at h
  obtain ⟨⟨arguments, result⟩, u₁, h₁, id, _, h₂, -, rfl⟩ := h
  exact ⟨arguments, result, u₁, id, h₁, h₂⟩

theorem lowerFunction_gives {item : FunctionItem} {a : Unit} (h : Gives (lowerFunction item) u a u') :
    ∃ arguments result u₁ f u₂ id, Gives (lowerSignature item.signature) u (arguments, result) u₁ ∧
      Gives (defineFunction item arguments result) u₁ f u₂ ∧ Gives (addFunction f) u₂ id u' := by
  simp only [lowerFunction, gives_bind, gives_report, gives_pure] at h
  obtain ⟨_, _, rfl, ⟨arguments, result⟩, u₁, h₁, f, u₂, h₂, _, _, rfl, id, _, h₃, -, rfl⟩ := h
  exact ⟨arguments, result, u₁, f, u₂, id, h₁, h₂, h₃⟩

theorem Finished.declareItem (hu : u.Finished) {item : Item} (h : Gives (declareItem item) u () u') :
    u'.Finished := by
  have declared : ∀ {s : Signature}, Gives (declareFunction s) u () u' → u'.Finished := by
    intro s h
    obtain ⟨arguments, result, u₁, id, h₁, h₂⟩ := declareFunction_gives h
    obtain ⟨he, hc, ha, hr, -⟩ := lowerSignature_gives h₁ hu.closed
    exact (hu.of_extends he hc).addFunction ha hr (Or.inl rfl) h₂
  cases item with
  | type t =>
    simp only [CompilationUnit.declareItem, gives_bind, gives_pure] at h
    obtain ⟨ty, _, h, -, rfl⟩ := h
    exact hu.of_extends (extends_of_lowerType h) (hu.closed.lowerType h)
  | function f => exact declared h
  | foreign s => exact declared h

theorem Finished.lowerItem (hu : u.Finished) {item : Item} (h : Gives (lowerItem item) u () u') : u'.Finished := by
  cases item with
  | type t | foreign s =>
    obtain ⟨-, rfl⟩ := gives_pure.1 h
    exact hu
  | function f =>
    obtain ⟨arguments, result, u₁, d, u₂, id, h₁, h₂, h₃⟩ := lowerFunction_gives h
    obtain ⟨he, hc, ha, hr, -⟩ := lowerSignature_gives h₁ hu.closed
    obtain ⟨g, hdone, rfl, rfl, he', -, hga, hgr⟩ := defineFunction_done hc ha hr h₂
    have hle := he'.typedefs_size_le
    refine ((hu.of_extends he hc).of_extends he' hdone.sound.closed).addFunction ?_ ?_ (Or.inr ⟨g, hdone, rfl⟩) h₃
    · rw [hga]
      exact fun ty hty => (ha ty hty).mono hle
    · rw [hgr]
      exact hr.mono hle

theorem finished_empty (name : String) (options : Options) : (empty name options).Finished := by
  refine ⟨⟨?_, ?_, ?_⟩, ?_⟩
  · intro t ht
    cases ht
  · intro n f hf
    cases hf
  · intro l hl
    cases hl
  · intro f hf
    cases hf

/-- **Both passes leave declarations and complete definitions.** -/
theorem finished_of_passes {items : List Item} {name : String} {options : Options}
    (h₁ : Gives (collectingAll CompilationUnit.declareItem items) (.empty name options) [] u)
    (h₂ : Gives (collectingAll CompilationUnit.lowerItem items) u [] u') : u'.Finished := by
  have hu : u.Finished := collectingAll_keeps (fun _ h hu => hu.declareItem h) h₁ (finished_empty name options)
  exact collectingAll_keeps (fun _ h hu => hu.lowerItem h) h₂ hu

theorem verify_gives {found : List Violation} : Gives verify u found u' ↔ u.violations = found ∧ u = u' := by
  simp only [verify, gives_get_bind]
  cases u.violations.isEmpty <;> simp [-map_pure, -bind_pure_comp]

theorem verifyFinished_gives {m : Module} {a : Unit} (h : Gives (verifyFinished m) u a u') : u' = u := by
  simp only [verifyFinished, gives_get_bind, gives_ite, gives_pure, gives_bind (x := verify), verify_gives,
    not_gives_fault, and_false, or_false] at h
  rcases h with ⟨-, _, _, ⟨-, rfl⟩, -, -, rfl⟩ | ⟨-, -, rfl⟩
  · rfl
  · rfl

/-- A successful run is one in which every item succeeds in both passes. -/
theorem lowerProgram_gives {m : Module} {a : Unit} (h : Gives (lowerProgram m) u a u') :
    ∃ u₁, Gives (collectingAll CompilationUnit.declareItem m.items) u [] u₁ ∧
      Gives (collectingAll CompilationUnit.lowerItem m.items) u₁ [] u' := by
  simp only [lowerProgram, gives_report_bind, gives_bind (x := collectingAll _ _), gives_ite, not_gives_fail,
    and_false, or_false, gives_bind (x := verifyFinished _), gives_get_bind, gives_report] at h
  obtain ⟨declaring, u₁, h₁, lowering, u₂, h₂, hnil, _, u₃, h₃, rfl⟩ := h
  obtain ⟨rfl, rfl⟩ := List.append_eq_nil_iff.1 (List.isEmpty_iff.1 hnil)
  obtain rfl := verifyFinished_gives h₃
  exact ⟨u₁, h₁, h₂⟩

end CompilationUnit

theorem Module.lower_gives {m : Module} {options : Options} {u : CompilationUnit} (h : m.lower options = .ok u) :
    Gives (CompilationUnit.lowerProgram m) (.empty m.name options) () u := by
  obtain ⟨hr, hs⟩ := except_map_eq_ok.1 h
  exact ⟨hr, hs⟩

/-! ## A module to try results on -/

namespace Sample

/-- `fn smaller(a: i32, b: i32) -> i32 { if a < b { return a } return b }` -/
def smaller : FunctionItem :=
  .of ⟨"smaller", [⟨"a", .elementary .i32, default⟩, ⟨"b", .elementary .i32, default⟩], some (.elementary .i32),
      default⟩
    (.ofStatements
      [.branch
        (.binary .less (.ident "a" (.elementary .i32) default) (.ident "b" (.elementary .i32) default)
          (.elementary .bool) default)
        (.ofStatements [.give (some (.ident "a" (.elementary .i32) default)) default] default) none default,
      .give (some (.ident "b" (.elementary .i32) default)) default]
      default)

/-- `fn start(n: i32) -> i64 { var m: i32 = smaller(n, 7); return m + 1 }` -/
def start : FunctionItem :=
  .of ⟨"start", [⟨"n", .elementary .i32, default⟩], some (.elementary .i64), default⟩
    (.ofStatements
      [.declare "m" (.elementary .i32)
        (some (.ofCall "smaller"
          [.ident "n" (.elementary .i32) default, .constant (.int 7) (.elementary .i64) default]
          smaller.signature.ty default)) default,
      .give (some (.binary .add (.ident "m" (.elementary .i32) default)
        (.constant (.int 1) (.elementary .i64) default) (.elementary .i64) default)) default]
      default)

/-- Both functions. -/
def program : Module := ⟨"sample", [.function smaller, .function start], .empty⟩

/-- The unit the module lowers to. -/
def lowered : CompilationUnit := (program.lower {}).toOption.getD (.empty "" {})

theorem lower_program : program.lower {} = .ok lowered := by
  have h : (program.lower {}).toOption.isSome = true := by decide +kernel
  unfold lowered
  cases hl : program.lower {} with
  | error e => simp [hl, Except.toOption] at h
  | ok u => rfl

end Sample

end BlockForm
