import BlockForm.Proofs.Evaluation
import BlockForm.Proofs.Program

/-!
# BlockForm.Proofs.Soundness — what holds of every unit that lowering produces

Results are computed on every path to their uses (`Module.lower_computed`), and every function keeps to the
instruction table of the final unit (`Module.lower_typeSound`).  For the second, `Typed` is kept by both passes: a
definition is checked against the declarations of its time, and it takes the place of one with the same signature,
because a signature is lowered alike in every later unit (`Declares`).
-/

namespace BlockForm

open Action

/-! ## Paths -/

theorem Module.lower_finished {m : Module} {options : Options} {u : CompilationUnit} (h : m.lower options = .ok u) :
    u.Finished := by
  obtain ⟨u₁, h₁, h₂⟩ := CompilationUnit.lowerProgram_gives (Module.lower_gives h)
  exact CompilationUnit.finished_of_passes h₁ h₂

/-- **Results are computed on every path to their uses.**  On every way through the blocks of a definition, from its
first block to one that uses the result of an instruction, the instruction stands in an earlier block of the way or
earlier in the same block. -/
theorem Module.lower_computed {m : Module} {options : Options} {u : CompilationUnit} (h : m.lower options = .ok u)
    {f : Function} (hf : f ∈ u.functions.values) (hd : f.isDeclaration = false) {before : List BlockId} {b : BlockId}
    (hp : f.Path before b) {earlier : List InstructionId} {i : InstructionId} (hu : f.Uses b earlier i) :
    (∃ c ∈ before, ∃ x, f.block? c = some x ∧ i ∈ x.instructions) ∨ i ∈ earlier := by
  rcases (Module.lower_finished h).functions f hf with hdecl | ⟨g, hdone, rfl⟩
  · rw [hd] at hdecl
    cases hdecl
  · exact hdone.sound.dominated.computed hp hu

/-- In the sample, the end block reads the return slot that the first block has made, two blocks before. -/
theorem Sample.smaller_computed :
    ∃ f ∈ Sample.lowered.functions.values, f.Path [⟨0⟩, ⟨2⟩] ⟨1⟩ ∧ f.Uses ⟨1⟩ [] ⟨0⟩ ∧
      ((∃ c ∈ [(⟨0⟩ : BlockId), ⟨2⟩], ∃ x, f.block? c = some x ∧ (⟨0⟩ : InstructionId) ∈ x.instructions) ∨
        (⟨0⟩ : InstructionId) ∈ ([] : List InstructionId)) := by
  have hrun : Sample.lowered.functions.values.head?.any (fun f => decide
      (f.isDeclaration = false ∧ f.blockIds.head? = some ⟨0⟩ ∧
        (f.block? ⟨0⟩).bind Block.exit = some (.condBranch ⟨10⟩ ⟨11⟩ ⟨12⟩) ∧ f.labelTarget? ⟨11⟩ = some ⟨2⟩ ∧
        (f.block? ⟨2⟩).bind Block.exit = some (.branch ⟨4⟩) ∧ f.labelTarget? ⟨4⟩ = some ⟨1⟩ ∧
        (f.block? ⟨1⟩).map (fun x => x.instructions.toList) = some [⟨12⟩] ∧
        (f.instruction? ⟨12⟩).map Instruction.operation = some (.read ⟨5⟩) ∧
        (f.value? ⟨5⟩).map Value.kind = some (.result ⟨0⟩))) = true := by
    decide +kernel
  obtain ⟨f, hf, hrun⟩ := (Option.any_eq_true _ _).1 hrun
  obtain ⟨hd, hentry, h₀, hl₂, h₂, hl₁, h₁, hins, hval⟩ := of_decide_eq_true hrun
  obtain ⟨x₀, hx₀, he₀⟩ := Option.bind_eq_some_iff.1 h₀
  obtain ⟨x₂, hx₂, he₂⟩ := Option.bind_eq_some_iff.1 h₂
  obtain ⟨x₁, hx₁, hlist⟩ := Option.map_eq_some_iff.1 h₁
  obtain ⟨ins, hins, hop⟩ := Option.map_eq_some_iff.1 hins
  obtain ⟨y, hy, hk⟩ := Option.map_eq_some_iff.1 hval
  have hpath : f.Path [⟨0⟩, ⟨2⟩] ⟨1⟩ :=
    .next (.next (.entry hentry) ⟨x₀, _, _, hx₀, he₀, List.mem_cons_self .., hl₂⟩)
      ⟨x₂, _, _, hx₂, he₂, List.mem_cons_self .., hl₁⟩
  have huse : f.Uses ⟨1⟩ [] ⟨0⟩ := .operand hx₁ hlist hins (by simp [hop, Operation.operands]) hy hk
  have hmem := List.mem_of_mem_head? (Option.mem_def.2 hf)
  exact ⟨f, hmem, hpath, huse, Module.lower_computed Sample.lower_program hmem hd hpath huse⟩

/-! ## Signatures -/

/-- A function stays well typed in a unit that upholds typedefs and signatures. -/
theorem Function.WellTyped.upholds {f : Function} {u u' : CompilationUnit} (h : f.WellTyped u) (hc : f.Coherent)
    (hu : u.Upholds u') : f.WellTyped u' :=
  h.grow hc (.refl f) hu Or.inl Or.inl fun hx _ _ => Or.inl hx

/-- No two functions of the module have the same name. -/
def Module.DistinctFunctions (m : Module) : Prop := (m.signatures.map Signature.name).Nodup

instance (m : Module) : Decidable m.DistinctFunctions := inferInstanceAs (Decidable (List.Nodup _))

namespace CompilationUnit

variable {u u' : CompilationUnit}

/-- The unit has a function for the signature, which every later unit lowers to the same types. -/
def Declares (u : CompilationUnit) (s : Signature) : Prop :=
  ∃ f, u.function? s.name = some f ∧ ∀ {v : CompilationUnit}, u.typedefs.entries <+: v.typedefs.entries →
    Gives (lowerSignature s) v (f.arguments, f.returnType) v

theorem Declares.upholds {s : Signature} (h : u.Declares s) (hu : u.Upholds u') : u'.Declares s := by
  obtain ⟨f, hf, hagain⟩ := h
  obtain ⟨f', hf', harg, hret⟩ := hu.signature hf
  refine ⟨f', hf', fun hv => ?_⟩
  rw [harg, hret]
  exact hagain (hu.typedefs.trans hv)

/-- A function that is put in the place of one with its signature, or in a free place, upholds the unit. -/
theorem upholds_addFunction {f : Function} {id : FunctionId} (h : Gives (addFunction f) u id u')
    (hsame : ∀ g, u.function? f.name = some g → f.arguments = g.arguments ∧ f.returnType = g.returnType) :
    u.Upholds u' := by
  have ht := (addFunction_gives h).2.1
  refine ⟨ht ▸ List.prefix_refl _, fun {name callee} hc => ?_⟩
  by_cases hn : name = f.name
  · subst hn
    exact ⟨f, by rw [function?_of_addFunction h, if_pos rfl], hsame callee hc⟩
  · exact ⟨callee, by rw [function?_of_addFunction h, if_neg hn, hc], rfl, rfl⟩

/-- Every function keeps to the instruction table of the unit. -/
structure Typed (u : CompilationUnit) : Prop where
  closed : u.Closed
  coherent : ∀ f ∈ u.functions.values, f.Coherent
  wellTyped : ∀ f ∈ u.functions.values, f.WellTyped u

theorem Typed.of_extends (h : u.Typed) (he : u.Extends u') (hc : u'.Closed) : u'.Typed := by
  refine ⟨hc, ?_, ?_⟩
  · rw [he.functions]
    exact h.coherent
  · intro f hf
    rw [he.functions] at hf
    exact (h.wellTyped f hf).upholds (h.coherent f hf) he.upholds

theorem Typed.addFunction (h : u.Typed) {f : Function} (hc : f.Coherent) (hw : f.WellTyped u) {id : FunctionId}
    (hadd : Gives (addFunction f) u id u') (hu : u.Upholds u') : u'.Typed := by
  refine ⟨h.closed.addFunction hw.arguments hw.returnType hadd, fun g hg => ?_, fun g hg => ?_⟩
  all_goals
    rw [(addFunction_gives hadd).1] at hg
    rcases Table.mem_values_insert hg with rfl | hg
  · exact hc
  · exact h.coherent g hg
  · exact hw.upholds hc hu
  · exact (h.wellTyped g hg).upholds (h.coherent g hg) hu

theorem typed_empty (name : String) (options : Options) : (empty name options).Typed := by
  refine ⟨(finished_empty name options).closed, ?_, ?_⟩
  · intro f hf
    cases hf
  · intro f hf
    cases hf

/-- Typed, with a function for each of the signatures. -/
structure Keeps (u : CompilationUnit) (signatures : List Signature) : Prop where
  typed : u.Typed
  declares : ∀ s ∈ signatures, u.Declares s

theorem Keeps.of_extends {signatures : List Signature} (h : u.Keeps signatures) (he : u.Extends u')
    (hc : u'.Closed) : u'.Keeps signatures :=
  ⟨h.typed.of_extends he hc, fun s hs => (h.declares s hs).upholds he.upholds⟩

theorem Keeps.addFunction {signatures : List Signature} (h : u.Keeps signatures) {f : Function} (hc : f.Coherent)
    (hw : f.WellTyped u) {id : FunctionId} (hadd : Gives (addFunction f) u id u') (hu : u.Upholds u') :
    u'.Keeps signatures :=
  ⟨h.typed.addFunction hc hw hadd hu, fun s hs => (h.declares s hs).upholds hu⟩

/-! ## The first pass -/

theorem coherent_declaration (name : String) (arguments : List LoweredType) (returnType : LoweredType) :
    (Function.declaration name arguments returnType).Coherent :=
  (Function.fresh_declaration name arguments returnType).coherent.congr rfl rfl rfl

theorem wellTyped_declaration {name : String} {arguments : List LoweredType} {returnType : LoweredType}
    (ha : ∀ ty ∈ arguments, u.Knows ty) (hr : u.Knows returnType) :
    (Function.declaration name arguments returnType).WellTyped u := by
  have hvalue : ∀ v ty, (Function.declaration name arguments returnType).valueType? v ≠ some ty := by
    intro v ty hty
    obtain ⟨x, hx, hxt⟩ := Option.bind_eq_some_iff.1 hty
    rcases (Function.fresh_declaration name arguments returnType).only hx with rfl | ⟨_, _, _, _, hmem⟩
    · cases hxt
    · cases hmem
  refine ⟨ha, hr, fun hty => absurd hty (hvalue _ _), ?_, ?_, ?_⟩
  · intro i ins hins
    simp [Function.instruction?, Function.declaration] at hins
  · intro i ins hins
    simp [Function.instruction?, Function.declaration] at hins
  · intro b x e c hx
    simp [Function.block?, Function.declaration] at hx

/-- Typed, with a function for each of the signatures and no other. -/
structure Announces (u : CompilationUnit) (signatures : List Signature) : Prop extends Keeps u signatures where
  only : ∀ {name f}, u.function? name = some f → name ∈ signatures.map Signature.name

theorem Announces.of_extends {signatures : List Signature} (h : u.Announces signatures) (he : u.Extends u')
    (hc : u'.Closed) : u'.Announces signatures := by
  refine ⟨h.toKeeps.of_extends he hc, fun hf => ?_⟩
  rw [function?, he.functions] at hf
  exact h.only hf

theorem Announces.declareFunction {signatures : List Signature} (h : u.Announces signatures) {s : Signature}
    (hs : s.name ∉ signatures.map Signature.name) (hg : Gives (declareFunction s) u () u') :
    u'.Announces (signatures ++ [s]) := by
  obtain ⟨arguments, result, u₁, id, h₁, h₂⟩ := declareFunction_gives hg
  obtain ⟨he, hc, ha, hr, hagain⟩ := lowerSignature_gives h₁ h.typed.closed
  have h' := h.of_extends he hc
  have hu : u₁.Upholds u' := upholds_addFunction h₂ fun f hf => absurd (h'.only hf) hs
  have hkeeps := h'.toKeeps.addFunction (coherent_declaration ..) (wellTyped_declaration ha hr) h₂ hu
  have hfun : ∀ name, u'.function? name =
      if name = s.name then some (.declaration s.name arguments result) else u₁.function? name :=
    function?_of_addFunction h₂
  refine ⟨⟨hkeeps.typed, fun t ht => ?_⟩, fun {name f} hf => ?_⟩
  · rcases List.mem_append.1 ht with ht | ht
    · exact hkeeps.declares t ht
    · obtain rfl := List.mem_singleton.1 ht
      exact ⟨_, by rw [hfun, if_pos rfl], fun hv => hagain (hu.typedefs.trans hv)⟩
  · rw [hfun] at hf
    split at hf
    · next hn => simp [hn]
    · rw [List.map_append]
      exact List.mem_append_left _ (h'.only hf)

theorem Announces.declareItem {items : List Item} (h : u.Announces (items.filterMap Item.signature?)) {item : Item}
    (hnew : ∀ s, item.signature? = some s → s.name ∉ (items.filterMap Item.signature?).map Signature.name)
    (hg : Gives (declareItem item) u () u') : u'.Announces ((items ++ [item]).filterMap Item.signature?) := by
  rw [List.filterMap_append]
  cases item with
  | type t =>
    simp only [CompilationUnit.declareItem, gives_bind, gives_pure] at hg
    obtain ⟨ty, _, hg, -, rfl⟩ := hg
    have hnone : [Item.type t].filterMap Item.signature? = [] := rfl
    rw [hnone, List.append_nil]
    exact h.of_extends (extends_of_lowerType hg) (h.typed.closed.lowerType hg)
  | function f => exact h.declareFunction (hnew f.signature rfl) hg
  | foreign s => exact h.declareFunction (hnew s rfl) hg

/-- The first pass leaves a function for each signature. -/
theorem announces_of_declaring {items : List Item} (done : List Item)
    (hnd : (((done ++ items).filterMap Item.signature?).map Signature.name).Nodup)
    (h : Gives (collectingAll CompilationUnit.declareItem items) u [] u')
    (hu : u.Announces (done.filterMap Item.signature?)) :
    u'.Announces ((done ++ items).filterMap Item.signature?) := by
  induction items generalizing done u with
  | nil =>
    obtain ⟨-, rfl⟩ := gives_pure.1 h
    simpa using hu
  | cons item items ih =>
    obtain ⟨v, h₁, h₂⟩ := collectingAll_cons_gives.1 h
    have hsplit : done ++ item :: items = done ++ [item] ++ items := by simp
    rw [hsplit] at hnd ⊢
    refine ih (done ++ [item]) hnd h₂ (hu.declareItem (fun s hs hmem => ?_) h₁)
    rw [List.append_assoc, List.filterMap_append, List.map_append, List.nodup_append] at hnd
    refine hnd.2.2 _ hmem s.name ?_ rfl
    simp [hs]

/-! ## The second pass -/

theorem Keeps.lowerItem {signatures : List Signature} (h : u.Keeps signatures) {item : Item}
    (hs : ∀ s, item.signature? = some s → s ∈ signatures) (hg : Gives (lowerItem item) u () u') :
    u'.Keeps signatures := by
  cases item with
  | type t | foreign s =>
    obtain ⟨-, rfl⟩ := gives_pure.1 hg
    exact h
  | function f =>
    obtain ⟨arguments, result, u₁, d, u₂, id, h₁, h₂, h₃⟩ := lowerFunction_gives hg
    obtain ⟨f₀, hf₀, hagain⟩ := h.declares f.signature (hs _ rfl)
    -- The signature is lowered again, to the types of the function that stands there.
    obtain ⟨hpair, rfl⟩ := h₁.unique (hagain (List.prefix_refl _))
    cases hpair
    obtain ⟨ha, hr⟩ := h.typed.closed.signatures hf₀
    obtain ⟨g, hdone, rfl, rfl, he, hname, hga, hgr⟩ := defineFunction_done h.typed.closed ha hr h₂
    have hu : g.state.unit.Upholds u' := by
      refine upholds_addFunction h₃ fun g' hg' => ?_
      rw [function?, he.functions, hname] at hg'
      obtain rfl := Option.some.inj (hf₀.symm.trans hg')
      exact ⟨hga, hgr⟩
    exact (h.of_extends he hdone.sound.closed).addFunction hdone.sound.coherent hdone.sound.wellTyped h₃ hu

/-- The first pass leaves a function for each signature of the module. -/
theorem announces_of_module {m : Module} (hm : m.DistinctFunctions) {name : String} {options : Options}
    (h : Gives (collectingAll CompilationUnit.declareItem m.items) (.empty name options) [] u) :
    u.Announces m.signatures := by
  refine announces_of_declaring [] hm h ⟨⟨typed_empty name options, ?_⟩, ?_⟩
  · intro s hs
    cases hs
  · intro n f hf
    cases hf

theorem mem_signatures {m : Module} {item : Item} (hitem : item ∈ m.items) :
    ∀ s, item.signature? = some s → s ∈ m.signatures := fun _ hs => List.mem_filterMap.2 ⟨item, hitem, hs⟩

theorem keeps_of_passes {m : Module} (hm : m.DistinctFunctions) {name : String} {options : Options}
    (h₁ : Gives (collectingAll CompilationUnit.declareItem m.items) (.empty name options) [] u)
    (h₂ : Gives (collectingAll CompilationUnit.lowerItem m.items) u [] u') : u'.Keeps m.signatures := by
  have hu := announces_of_module hm h₁
  exact collectingAll_keeps (fun hmem hg hk => Keeps.lowerItem hk (mem_signatures hmem) hg) h₂ hu.toKeeps

/-! ## The final unit -/

end CompilationUnit

namespace Function

/-- Every type that a function mentions. -/
def mentionedTypes (f : Function) : List LoweredType :=
  f.arguments ++ [f.returnType] ++ f.values.toList.filterMap Value.ty ++
    f.instructions.toList.flatMap fun ins => ins.operation.types

theorem WellTyped.knows_of_mem {f : Function} {u : CompilationUnit} (h : f.WellTyped u) {ty : LoweredType}
    (hty : ty ∈ f.mentionedTypes) : u.Knows ty := by
  simp only [mentionedTypes, List.mem_append, List.mem_singleton, List.mem_filterMap,
    List.mem_flatMap] at hty
  rcases hty with ((hty | rfl) | ⟨x, hx, hty⟩) | ⟨ins, hins, hty⟩
  · exact h.arguments ty hty
  · exact h.returnType
  · obtain ⟨n, hn⟩ := List.mem_iff_getElem?.1 hx
    have hv : f.value? ⟨n⟩ = some x := by simpa [Function.value?] using hn
    exact h.values (Option.bind_eq_some_iff.2 ⟨x, hv, hty⟩)
  · obtain ⟨n, hn⟩ := List.mem_iff_getElem?.1 hins
    have hi : f.instruction? ⟨n⟩ = some ins := by simpa [Function.instruction?] using hn
    exact h.mentioned hi ty hty

end Function

namespace CompilationUnit

variable {u : CompilationUnit}

/-- Every type that a unit mentions. -/
def mentionedTypes (u : CompilationUnit) : List LoweredType :=
  u.functions.values.flatMap Function.mentionedTypes ++
    u.typedefs.values.flatMap (fun t => t.members.map TypeMember.ty) ++ u.globals.values.map Global.ty

/-- The functions of the unit are well typed with respect to the unit itself. -/
structure TypeSound (u : CompilationUnit) : Prop where
  /-- The instruction table accepts every instruction, and the result has the type that the table gives. -/
  instructions : ∀ f ∈ u.functions.values, ∀ i ins, f.instruction? i = some ins →
    f.resultType u ins.operation = .ok (f.valueType? ins.value)
  /-- Every operand is a value with a type. -/
  operands : ∀ f ∈ u.functions.values, ∀ i ins, f.instruction? i = some ins →
    ∀ v ∈ ins.operation.operands, ∃ x ty, f.value? v = some x ∧ x.ty = some ty
  /-- A call names a function of the unit, passes exactly what it takes and has its result, none for `nil`. -/
  calls : ∀ f ∈ u.functions.values, ∀ i ins name args, f.instruction? i = some ins →
    ins.operation = .call name args → ∃ callee, u.function? name = some callee ∧
      List.Forall₂ (fun arg ty => f.valueType? arg = some ty) args callee.arguments ∧
      f.valueType? ins.value = if callee.returnType.isNil then none else some callee.returnType
  /-- A return gives a value of the return type, nothing only for `nil`. -/
  returns : ∀ f ∈ u.functions.values, ∀ i ins value, f.instruction? i = some ins →
    ins.operation = .give value → value.elim (f.returnType.isNil = true) fun v => f.valueType? v = some f.returnType
  /-- A condition is a truth value. -/
  conditions : ∀ f ∈ u.functions.values, ∀ b x c taken otherwise, f.block? b = some x →
    x.exit = some (.condBranch c taken otherwise) → f.valueType? c = some (.elementary .bool)
  /-- Every typedef that is mentioned exists. -/
  typedefs : ∀ ty ∈ u.mentionedTypes, ∀ id, ty.typedef? = some id → ∃ t, u.typedefAt? id = some t

theorem Knows.typedefAt? {ty : LoweredType} (h : u.Knows ty) {id : TypeDefId} (hid : ty.typedef? = some id) :
    ∃ t, u.typedefAt? id = some t := by
  have hlt : id.index < u.typedefs.entries.length := h id hid
  exact ⟨_, by rw [CompilationUnit.typedefAt?, Table.at?, List.getElem?_eq_getElem hlt]; rfl⟩

theorem Typed.knows (h : u.Typed) {ty : LoweredType} (hty : ty ∈ u.mentionedTypes) : u.Knows ty := by
  simp only [mentionedTypes, List.mem_append, List.mem_flatMap, List.mem_map] at hty
  rcases hty with (⟨f, hf, hty⟩ | ⟨t, ht, m, hm, rfl⟩) | ⟨l, hl, rfl⟩
  · exact (h.wellTyped f hf).knows_of_mem hty
  · exact h.closed.members t ht m hm
  · exact h.closed.globals l hl

theorem Typed.typeSound (h : u.Typed) : u.TypeSound := by
  have typed : ∀ f ∈ u.functions.values, ∀ {i ins}, f.instruction? i = some ins →
      f.Types u ins.operation (f.valueType? ins.value) := fun f hf _ _ hins => (h.wellTyped f hf).instructions hins
  refine ⟨?_, ?_, ?_, ?_, ?_, ?_⟩
  · intro f hf i ins hins
    exact Function.resultType_of_types (typed f hf hins)
  · intro f hf i ins hins v hv
    obtain ⟨ty, hty⟩ := (typed f hf hins).operand v hv
    obtain ⟨x, hx, hxt⟩ := Option.bind_eq_some_iff.1 hty
    exact ⟨x, ty, hx, hxt⟩
  · intro f hf i ins name args hins hop
    have ht := typed f hf hins
    rw [hop] at ht
    generalize f.valueType? ins.value = t at ht ⊢
    cases ht with
    | call hc ha => exact ⟨_, hc, ha, rfl⟩
  · intro f hf i ins value hins hop
    have ht := typed f hf hins
    rw [hop] at ht
    generalize f.valueType? ins.value = t at ht
    cases ht with
    | giveNothing hn => exact hn
    | give hv => exact hv
  · intro f hf b x c taken otherwise hx he
    exact (h.wellTyped f hf).conditions hx he (List.mem_singleton_self c)
  · intro ty hty id hid
    exact (h.knows hty).typedefAt? hid

end CompilationUnit

/-- **Every unit that lowering produces is well typed**, if no two functions of the module have the same name. -/
theorem Module.lower_typeSound {m : Module} {options : Options} {u : CompilationUnit} (hm : m.DistinctFunctions)
    (h : m.lower options = .ok u) : u.TypeSound := by
  obtain ⟨u₁, h₁, h₂⟩ := CompilationUnit.lowerProgram_gives (Module.lower_gives h)
  exact (CompilationUnit.keeps_of_passes hm h₁ h₂).typed.typeSound

theorem Sample.lowered_typeSound : Sample.program.DistinctFunctions ∧ Sample.lowered.TypeSound := by
  have hm : Sample.program.DistinctFunctions := by decide
  exact ⟨hm, Module.lower_typeSound hm Sample.lower_program⟩

end BlockForm
