import BlockForm.Proofs.ElementaryBodies
import BlockForm.Proofs.Embedding
import BlockForm.Proofs.Representation
import BlockForm.Proofs.Verified

/-!
# BlockForm.Proofs.Progress — elementary programs lower without errors

Every function of an elementary module completes: its arguments are copied into slots, its body lowers, and its end
block reads back what the body leaves (`lowerFunctionBody_completes`).  The unit has functions only, so no name is taken
by anything else, and both passes complete.

A table may fill up in the unit, or in a function that is not in the unit yet.  Such a function is the draft of its
definition (`CompilationUnit.draft`), whether the definition succeeds or not.  If the tables of the unit and of all
drafts have room, the module is lowered (`Module.lower_elementary`).
-/

namespace BlockForm

open Action

/-! ## The blocks that a body starts with -/

namespace Function

variable {f : Function}

theorem pushArgument_completes (hf : f.Registered) (position : Nat) (ty : LoweredType) :
    Completes (pushArgument position ty) f fun _ f' => f' = f.withArgument position ty := by
  refine completes_bind_of_gives (freshVariable_gives.2 ⟨rfl, rfl⟩) ?_
  refine completes_bind_of_gives (a := ()) (bindName_gives.2 ⟨hf.variableName_free, rfl⟩) ?_
  refine (pushValue_completes _).bind ?_
  rintro _ _ ⟨rfl, rfl⟩
  exact completes_of_gives (a := ()) (gives_modify.2 rfl) rfl

theorem pushArguments_completes (tys : List LoweredType) : ∀ {f : Function}, f.Registered →
    Completes (pushArguments f.argumentValues.size tys) f fun _ f' => f'.Registered := by
  induction tys with
  | nil => exact fun hf => completes_pure hf
  | cons ty tys ih =>
    intro f hf
    refine (pushArgument_completes hf _ ty).bind ?_
    rintro _ _ rfl
    have hsize : (f.withArgument f.argumentValues.size ty).argumentValues.size = f.argumentValues.size + 1 := by
      simp [withArgument]
    exact hsize ▸ ih (hf.withArgument ty)

/-- A definition gets its arguments, and has no blocks yet. -/
theorem definition_completes (name : String) (arguments : List LoweredType) (returnType : LoweredType) :
    Completes (pushArguments 0 arguments) { declaration name arguments returnType with layout := some #[] } fun _ f =>
      f.Registered ∧ f.Fresh arguments ∧ f.returnType = returnType := by
  refine (pushArguments_completes arguments (registered_declaration name arguments returnType)).mono_gives ?_
  rintro _ f ⟨hok, rfl⟩ hf
  obtain ⟨hfresh, -, -, hret⟩ := fresh_definition hok
  exact ⟨hf, hfresh, hret⟩

theorem openBody_completes (hf : f.Registered) {tys : List LoweredType} (hfresh : f.Fresh tys) :
    Completes openBody f fun blocks f' => blocks = (⟨0⟩, ⟨1⟩) ∧ f' = f.opened ∧ f'.Registered := by
  have hd : f.isDeclaration = false := by simp [isDeclaration, hfresh.layout]
  have hnot : f.nextBlock ∉ f.withLabel.blockIds := by
    simp [blockIds, withLabel, hfresh.layout]
  have hplaced : (f.withLabel.place f.nextBlock).Registered := (Change.place hnot).registered hf.withLabel
  refine Completes.mono_gives (P := fun _ f' => f'.Registered) ?_ ?_
  · refine (newBlock_completes hf hd).bind ?_
    rintro _ _ ⟨rfl, rfl⟩
    refine completes_bind_of_gives (appendBlock_gives_place (f := f.withLabel) hd hnot) ?_
    refine (newBlock_completes hplaced ?_).bind ?_
    · rw [(grows_place _).isDeclaration]
      exact hd
    rintro _ _ ⟨rfl, rfl⟩
    have hblock := block?_withLabel_eq (f := f.withLabel.place f.nextBlock) (f.withLabel.place f.nextBlock).nextBlock
    rw [if_pos rfl] at hblock
    refine completes_bind_of_gives (labelOf_gives.2 ⟨⟨_, hblock, rfl⟩, rfl⟩) ?_
    refine completes_modify_bind (completes_pure ?_)
    exact hplaced.withLabel.congr rfl (fun o => by cases o <;> rfl) rfl rfl rfl
  · rintro ⟨entry, endBlock⟩ f' h hr
    obtain ⟨rfl, rfl, hf'⟩ := openBody_gives hfresh h
    exact ⟨rfl, hf', hr⟩

end Function

/-! ## Functions -/

namespace Lowering

variable {s : LoweringState} {signatures : List Signature} {gives : Bool} {scope : List String}

/-- A body starts in its entry block, with the end block waiting. -/
theorem able_opened {u : CompilationUnit} {f : Function} (hf : f.opened.Registered) {tys : List LoweredType}
    (hfresh : f.Fresh tys) :
    LoweringState.Able ⟨u, f.opened, ⟨0⟩, ⟨1⟩, [[]]⟩ ∧ f.opened.Waits ⟨1⟩ := by
  have hopen : ∀ n < 2, f.opened.IsOpen ⟨n⟩ := by
    intro n hn
    have hlt : n < f.opened.blocks.size := by simpa [hfresh.blocks_opened] using hn
    have hx : f.opened.block? ⟨n⟩ = some f.opened.blocks[n] := Array.getElem?_eq_getElem hlt
    exact ⟨_, hx, (hfresh.block?_opened hx).2⟩
  refine ⟨⟨⟨hf, ?_, ?_, ?_, ?_, ?_⟩, hopen 0 (by decide)⟩, ?_, hopen 1 (by decide)⟩
  · simp [Function.isDeclaration, Function.opened, Function.withLabel, Function.place, hfresh.layout]
  · simp [hfresh.blockIds_opened]
  · simp [hfresh.blockIds_opened, hfresh.blocks_opened]
  · simp
  · have hnone : f.opened.returnSlot = none := hfresh.returnSlot
    simp [hnone]
  · simp [hfresh.blockIds_opened]

/-- A return slot is made exactly if there is something to return. -/
theorem prepareReturn_completes (hs : s.Able) {e : Elementary} (hret : s.function.returnType = .elementary e)
    (hnone : s.function.returnSlot = none) :
    Completes prepareReturn s fun _ s' => s'.Able ∧ s'.unit = s.unit ∧ s'.endBlock = s.endBlock ∧
      s'.scopes = s.scopes ∧ s.function.Grows s'.function ∧
      s'.function.returnSlot.isSome = !s.function.returnType.isNil ∧
      ∀ {b}, s.function.Waits b → s'.function.Waits b := by
  refine completes_get_bind ?_
  by_cases hnil : s.function.returnType.isNil = true
  · rw [if_pos hnil]
    exact completes_pure ⟨hs, rfl, rfl, rfl, .refl _, by simp [hnone, hnil], id⟩
  rw [if_neg hnil, hret]
  refine (alloca_completes hs e).bind ?_
  rintro slot s₁ ⟨hw, hslot⟩
  have hs₁ := hw.able hs
  refine completes_of_gives (a := ()) (gives_inFunction.2 ⟨_, gives_modify.2 rfl, rfl⟩) ?_
  have hg := hw.changes.grows
  have hgrow : s.function.Grows { s₁.function with returnSlot := some slot } :=
    ⟨hg.name, hg.arguments, hg.returnType, hg.argumentValues, hg.endLabel, hg.isDeclaration, hg.values,
      hg.instructions, hg.blockIds, hg.block⟩
  refine ⟨⟨{ hs₁.toFit with registered := ?_, returnSlot := ?_ }, hs₁.isOpen⟩, hw.unit, hw.endBlock, hw.scopes,
    hgrow, ?_, fun hb => hw.waits hb⟩
  · exact hs₁.registered.congr rfl (fun o => by cases o <;> rfl) rfl rfl rfl
  · intro v hv
    obtain rfl : slot = v := by simpa using hv
    exact ⟨e, hg.returnType.trans hret, hslot⟩
  · rw [hret] at hnil
    simp [hnil]

/-- The arguments from a position on have values of elementary types. -/
def HasArguments (f : Function) (position count : Nat) : Prop :=
  ∀ i < count, ∃ v e, f.argumentValue? (position + i) = some v ∧ f.IsScalar v e

/-- The arguments are copied into slots named after the parameters. -/
theorem spillArguments_completes {function : String} (params : List Param) : ∀ {s : LoweringState}
    {scope : List String} {position : Nat}, s.Able → s.Supports signatures gives scope →
    HasArguments s.function position params.length →
    Completes (spillArguments function position params) s fun _ s' => s.After [] s' ∧ s'.Able ∧
      s'.Supports signatures gives (params.map Param.name ++ scope) := by
  induction params with
  | nil =>
    intro s scope position hs hp _
    exact completes_pure ⟨(LoweringState.Within.refl s).after hs, hs, hp⟩
  | cons param params ih =>
    intro s scope position hs hp harg
    obtain ⟨v, e, hv, hty⟩ := harg 0 (by simp)
    have hpointee : (LoweredType.elementary e).pointee = .elementary e := rfl
    refine completes_get_bind (completes_need_bind hv (completes_bind_of_gives (gives_typeOf_of hty) ?_))
    rw [hpointee]
    refine (alloca_completes hs e).bind ?_
    rintro slot s₁ ⟨hw₁, hslot⟩
    refine (store_completes (hw₁.able hs) hslot (hw₁.scalar hty)).bind ?_
    intro _ s₂ hw₂
    have hw := hw₁.trans hw₂
    refine (define_completes (hw.able hs) (hw.supports hp) param.name (hw₂.slot hslot)).bind ?_
    rintro _ s₃ ⟨ha₃, hs₃, -, hp₃⟩
    have ha := (hw.after hs).trans ha₃
    have harg₃ : HasArguments s₃.function (position + 1) params.length := by
      intro i hi
      obtain ⟨w, d, hw, hd⟩ := harg (i + 1) (by simpa using hi)
      refine ⟨w, d, ?_, ha.changes.grows.valueType?_eq hd⟩
      rw [Function.argumentValue?, ha.changes.grows.argumentValues, Nat.add_right_comm, Nat.add_assoc]
      exact hw
    refine (ih hs₃ hp₃ harg₃).mono ?_
    rintro _ s₄ ⟨ha₄, hs₄, hp₄⟩
    refine ⟨ha.trans ha₄, hs₄, { hp₄ with binds := fun name hname => hp₄.binds name ?_ }⟩
    simp only [List.map_cons, List.cons_append, List.mem_cons, List.mem_append] at hname ⊢
    tauto

/-- The end block returns what the return slot holds. -/
theorem finishReturn_completes (hs : s.Able)
    (hnone : s.function.returnSlot = none → s.function.returnType.isNil = true) :
    Completes finishReturn s fun _ s' => s'.unit = s.unit := by
  unfold finishReturn
  refine completes_get_bind ?_
  cases hslot : s.function.returnSlot with
  | none =>
    obtain ⟨x, hx, hopen⟩ := hs.isOpen
    have hreturn := Function.setReturn_completes (u := s.unit) hs.registered hx hopen (.giveNothing (hnone hslot))
    exact completes_bind_of_gives (gives_pure.2 ⟨rfl, rfl⟩) (completes_inFunction hreturn fun _ _ _ => rfl)
  | some slot =>
    obtain ⟨e, hret, he⟩ := hs.returnSlot slot hslot
    dsimp only
    rw [← bind_assoc]
    refine ((emit_completes hs rfl (.read he rfl)).bind (Q := fun value s' => s.Within s' ∧
      ∃ v, value = some v ∧ s'.function.IsScalar v e) ?_).bind ?_
    · rintro v s₁ ⟨hw, -, hty⟩
      exact completes_pure ⟨hw, v, rfl, hty _ rfl⟩
    rintro _ s₁ ⟨hw, v, rfl, hty⟩
    have hs₁ := hw.able hs
    obtain ⟨x, hx, hopen⟩ := hs₁.isOpen
    rw [hw.current] at hx
    have hgive : s₁.function.Types s.unit (.give (some v)) none := by
      refine .give ?_
      rw [hw.changes.grows.returnType, hret]
      exact hty
    exact completes_inFunction (Function.setReturn_completes hs₁.registered hx hopen hgive) fun _ _ _ => hw.unit

/-- **The body of an elementary function lowers.** -/
theorem lowerFunctionBody_completes {item : FunctionItem} (hs : s.Able) (hw : s.function.Waits s.endBlock)
    (hscopes : s.scopes ≠ []) (hsig : ∀ t ∈ signatures, t.isElementary = true)
    (hdecl : ∀ t ∈ signatures, s.unit.Declares t) {e : Elementary} (hret : s.function.returnType = .elementary e)
    (hres : item.signature.result.elementary? = some e) (hslot : s.function.returnSlot = none)
    (harg : HasArguments s.function 0 item.signature.params.length)
    (hbody : item.body.isElementary signatures (!item.signature.result.isNil)
      (item.signature.params.map Param.name) = true) :
    Completes (lowerFunctionBody item) s fun _ s' => s'.unit = s.unit := by
  have hnil : s.function.returnType.isNil = item.signature.result.isNil := by
    rw [hret, Ty.isNil, hres]
    rfl
  refine (prepareReturn_completes hs hret hslot).bind ?_
  rintro _ s₁ ⟨hs₁, hu₁, he₁, hsc₁, hg₁, hslot₁, hwaits₁⟩
  have hp₁ : s₁.Supports signatures (!item.signature.result.isNil) [] :=
    { elementary := hsig
      declares := hu₁ ▸ hdecl
      returns := hnil ▸ hslot₁
      isNil := by rw [hg₁.returnType, hnil, Bool.not_not]
      isScoped := hsc₁ ▸ hscopes
      binds := by simp
      ending := he₁ ▸ hwaits₁ hw }
  have harg₁ : HasArguments s₁.function 0 item.signature.params.length := by
    intro i hi
    obtain ⟨v, d, hv, hd⟩ := harg i hi
    exact ⟨v, d, by rw [Function.argumentValue?, hg₁.argumentValues]; exact hv, hg₁.valueType?_eq hd⟩
  refine (spillArguments_completes _ hs₁ hp₁ harg₁).bind ?_
  rintro _ s₂ ⟨ha₂, hs₂, hp₂⟩
  rw [List.append_nil] at hp₂
  refine (lowerBody_completes item.body hbody hs₂ hp₂).bind ?_
  rintro _ s₃ ⟨ha₃, hsc₃, hends⟩
  have hp₃ := ha₃.supports List.not_mem_nil hsc₃ hp₂
  refine completes_get_bind ((branchTo_completes ha₃.fit hp₃.ending.2 hends).bind ?_)
  rintro _ s₄ ⟨ha₄, hsc₄, -⟩
  have hp₄ := ha₄.supports List.not_mem_nil hsc₄ hp₃
  refine (startBlock_completes ha₄.fit (ha₄.endBlock ▸ hp₄.ending)).bind ?_
  rintro _ s₅ ⟨ha₅, -, hs₅⟩
  refine (finishReturn_completes hs₅ fun hnone => ?_).mono fun _ s₆ hu => ?_
  · have hreturns := hp₄.returns
    rw [ha₅.changes.returnSlot_eq] at hnone
    rw [hnone] at hreturns
    rw [ha₅.changes.grows.returnType, hp₄.isNil, ← hreturns]
    rfl
  · rw [hu, ha₅.unit, ha₄.unit, ha₃.unit, ha₂.unit, hu₁]

end Lowering

namespace Table

variable {α : Type} {t : Table α}

theorem indexOf?_lt {key : String} {i : Nat} (h : t.indexOf? key = some i) : i < t.size := by
  have hlt := (List.getElem?_eq_some_iff.1 (indexOf?_eq_some_iff.1 h)).1
  simpa [keys, size] using hlt

theorem size_le_insert (t : Table α) (key : String) (value : α) : t.size ≤ (t.insert key value).size := by
  by_cases h : key ∈ t.keys
  · simp [size, entries_insert_of_mem h, replaced]
  · simp [size, entries_insert_of_not_mem h]

end Table

namespace CompilationUnit

variable {u : CompilationUnit} {signatures : List Signature}

/-! ## The unit -/

/-- Every name of the unit is that of a function. -/
def OnlyFunctions (u : CompilationUnit) : Prop :=
  ∀ name object, u.names.get? name = some object → (u.function? name).isSome = true

/-- A function finds its place in a unit that has nothing but functions. -/
theorem addFunction_completes (hu : u.OnlyFunctions) (f : Function) :
    Completes (addFunction f) u fun _ u' => u'.OnlyFunctions := by
  have hinsert : ∀ name, (u.function? name).isSome = true →
      ((u.functions.insert f.name f).get? name).isSome = true := by
    intro name hname
    rw [Table.get?_insert]
    split
    · rfl
    · exact hname
  refine completes_get_bind ?_
  cases hi : u.functions.indexOf? f.name with
  | some i =>
    have hle : i ≤ (u.functions.insert f.name f).size :=
      Nat.le_trans (Nat.le_of_lt (Table.indexOf?_lt hi)) (Table.size_le_insert _ _ _)
    refine completes_bind_of_gives (a := ()) (gives_set.2 rfl) (completes_handle hle ?_)
    exact fun name object hname => hinsert name (hu name object hname)
  | none =>
    have hkey : f.name ∉ u.functions.keys := by
      rw [← Table.indexOf?_isSome_iff, hi]
      simp
    have hfree : u.names.get? f.name = none := by
      by_contra hne
      obtain ⟨object, hobject⟩ := Option.ne_none_iff_exists'.1 hne
      have hsome := hu f.name object hobject
      rw [function?, Table.get?_eq_none_iff.2 hkey] at hsome
      cases hsome
    refine (completes_handle (P := fun id u' => id = ⟨u.functions.size⟩ ∧ u' = u) (Nat.le_refl _) ⟨rfl, rfl⟩).bind ?_
    rintro _ _ ⟨rfl, rfl⟩
    refine completes_bind_of_gives (a := ()) (bindName_gives.2 ⟨hfree, rfl⟩) ?_
    refine completes_modify_bind (completes_pure fun name object hname => ?_)
    rw [Table.get?_insert] at hname
    split at hname
    · next hn =>
      subst hn
      simp [function?, Table.get?_insert]
    · exact hinsert name (hu name object hname)

theorem declareFunction_completes (hu : u.OnlyFunctions) {t : Signature} (ht : t.isElementary = true) :
    Completes (declareFunction t) u fun _ u' => u'.OnlyFunctions := by
  obtain ⟨arguments, e, h, -, -⟩ := lowerSignature_gives_elementary ht u
  refine completes_bind_of_gives h ((addFunction_completes hu _).bind fun _ u' hu' => ?_)
  exact completes_pure hu'

/-- The arguments of a fresh definition have values of the types of its parameters. -/
theorem hasArguments_opened {f : Function} {params : List Param} {arguments : List LoweredType}
    (hfresh : f.Fresh arguments)
    (hp : ParamsLowered params arguments) :
    Lowering.HasArguments f.opened 0 params.length := by
  intro i hi
  have hi' : i < arguments.length := hp.length_eq ▸ hi
  obtain ⟨e, -, hty⟩ := hp.get hi hi'
  obtain ⟨v, x, hv, hx, -, hxty⟩ := hfresh.argument (List.getElem?_eq_getElem hi')
  refine ⟨v, e, by rw [Nat.zero_add]; exact hv, ?_⟩
  refine Option.bind_eq_some_iff.2 ⟨x, Function.Fresh.value?_opened hx, ?_⟩
  rw [hxty]
  exact congrArg some hty

/-! ## Drafts -/

/-- The draft of a definition: the function, as far as its definition gets. -/
def draft (item : FunctionItem) (arguments : List LoweredType) (result : LoweredType) (u : CompilationUnit) :
    Function :=
  let opened := Function.definition item.signature.name arguments result
  match opened.result with
  | .error _ => opened.state
  | .ok () =>
    let blocks := Function.openBody opened.state
    match blocks.result with
    | .error _ => blocks.state
    | .ok (entry, endBlock) =>
      (Lowering.lowerFunctionBody item ⟨u, blocks.state, entry, endBlock, [[]]⟩).state.function

/-- The draft that lowering an item works on: there is none if the item is no function, or if its signature does not
lower. -/
def draft? (u : CompilationUnit) : Item → Option Function
  | .function item =>
    let signature := lowerSignature item.signature u
    match signature.result with
    | .ok (arguments, result) => some (draft item arguments result signature.state)
    | .error _ => none
  | .type _ | .foreign _ => none

/-- The drafts of items that are lowered one after another, up to the first fault. -/
def drafts : List Item → CompilationUnit → List Function
  | [], _ => []
  | item :: items, u =>
    let lowered := collecting (lowerItem item) u
    (u.draft? item).toList ++
      match lowered.result with
      | .ok _ => drafts items lowered.state
      | .error _ => []

theorem drafts_cons_of_gives {item : Item} {items : List Item} {u' : CompilationUnit}
    (h : Gives (lowerItem item) u () u') : drafts (item :: items) u = (u.draft? item).toList ++ drafts items u' := by
  obtain ⟨hr, hs⟩ := collecting_gives.2 h
  rw [drafts]
  simp only [hr, hs]

/-- **A definition over elementary types gives its draft**, if that has room. -/
theorem defineFunction_gives_draft {item : FunctionItem} (hsig : ∀ t ∈ signatures, t.isElementary = true)
    (hdecl : ∀ t ∈ signatures, u.Declares t) {arguments : List LoweredType} {e : Elementary}
    (hargs : ParamsLowered item.signature.params arguments) (hres : item.signature.result.elementary? = some e)
    (hbody : item.body.isElementary signatures (!item.signature.result.isNil)
      (item.signature.params.map Param.name) = true)
    (hroom : HasRoom (draft item arguments (.elementary e) u)) :
    Gives (defineFunction item arguments (.elementary e)) u (draft item arguments (.elementary e) u) u := by
  unfold draft at hroom ⊢
  unfold Gives defineFunction
  dsimp only at hroom ⊢
  -- a stage that overflows leaves its function as the draft
  rcases Function.definition_completes item.signature.name arguments (.elementary e) with
    hfull | ⟨_, f, ⟨hres₀, hst₀⟩, hreg, hfresh, hret⟩
  · have ⟨kind, hfault, _⟩ := hfull
    rw [← Function.definition] at hfault
    rw [hfault] at hroom
    exact absurd hroom hfull.not_hasRoom
  rw [← Function.definition] at hres₀ hst₀
  rw [hres₀, hst₀] at hroom ⊢
  dsimp only at hroom ⊢
  rcases Function.openBody_completes hreg hfresh with hfull | ⟨_, _, ⟨hres₁, hst₁⟩, rfl, rfl, hreg'⟩
  · have ⟨kind, hfault, _⟩ := hfull
    rw [hfault] at hroom
    exact absurd hroom hfull.not_hasRoom
  rw [hres₁, hst₁] at hroom ⊢
  dsimp only at hroom ⊢
  obtain ⟨hs, hwaits⟩ := Lowering.able_opened (u := u) hreg' hfresh
  have hret : f.opened.returnType = .elementary e := hret
  have hlower := Lowering.lowerFunctionBody_completes hs hwaits (List.cons_ne_nil _ _) hsig hdecl hret hres
    hfresh.returnSlot (hasArguments_opened hfresh hargs) hbody
  obtain ⟨_, s', ⟨hres₂, hst₂⟩, hu⟩ := hlower.gives hroom
  rw [hres₂, hst₂]
  exact ⟨rfl, hu⟩

/-! ## Both passes -/

theorem lowerFunction_completes (hu : u.OnlyFunctions) (hsig : ∀ t ∈ signatures, t.isElementary = true)
    (hdecl : ∀ t ∈ signatures, u.Declares t) {item : FunctionItem} (hmem : item.signature ∈ signatures)
    (hbody : item.body.isElementary signatures (!item.signature.result.isNil)
      (item.signature.params.map Param.name) = true)
    (hroom : ∀ f ∈ u.draft? (.function item), HasRoom f) :
    Completes (lowerFunction item) u fun _ u' => u'.OnlyFunctions := by
  refine completes_report_bind ?_
  have ht := hsig _ hmem
  obtain ⟨arguments, e, h, hargs, hres⟩ := lowerSignature_gives_elementary ht u
  have hdraft : u.draft? (.function item) = some (draft item arguments (.elementary e) u) := by
    obtain ⟨hr, hs⟩ := h
    simp only [draft?, hr, hs]
  have hdefine := defineFunction_gives_draft hsig hdecl hargs hres hbody (hroom _ hdraft)
  refine completes_bind_of_gives h (completes_bind_of_gives hdefine (completes_report_bind ?_))
  exact (addFunction_completes hu _).bind fun _ u' hu' => completes_pure hu'

/-- A step that completes collects no error. -/
theorem collecting_completes {x : Interning Unit} {P : CompilationUnit → Prop}
    (h : Completes x u fun _ u' => P u') : Completes (collecting x) u fun errors u' => errors = [] ∧ P u' := by
  rcases h with ⟨kind, hfault, hfull⟩ | ⟨_, u', h, hu'⟩
  · have hrun : collecting x u = ⟨.error (.internal (.tooManyObjects kind)), (x u).state, (x u).log⟩ := by
      unfold collecting
      rcases hx : x u with ⟨r, v, log⟩
      rw [hx] at hfault
      cases hfault
      rfl
    exact Or.inl ⟨kind, by rw [hrun], by rw [hrun]; exact hfull⟩
  · exact completes_of_gives (collecting_gives.2 h) ⟨rfl, hu'⟩

/-- A pass over items that complete collects no error; `P` may speak of the items that are left. -/
theorem collectingAll_completes {step : Item → Interning Unit} {P : List Item → CompilationUnit → Prop}
    (hstep : ∀ {item items u}, P (item :: items) u → Completes (step item) u fun _ u' => P items u') :
    ∀ {items u}, P items u → Completes (collectingAll step items) u fun errors u' => errors = [] ∧ P [] u' := by
  intro items
  induction items with
  | nil => exact fun hu => completes_pure ⟨rfl, hu⟩
  | cons item items ih =>
    intro u hu
    refine (collecting_completes (hstep hu)).bind ?_
    rintro _ u₁ ⟨rfl, hu₁⟩
    refine (ih hu₁).bind ?_
    rintro _ u₂ ⟨rfl, hu₂⟩
    exact completes_pure ⟨rfl, hu₂⟩

end CompilationUnit

namespace Module

variable {m : Module}

theorem IsElementary.signatures (h : m.IsElementary) : ∀ t ∈ m.signatures, t.isElementary = true := by
  intro t ht
  obtain ⟨item, hitem, hs⟩ := List.mem_filterMap.1 ht
  have he := h.items item hitem
  cases item with
  | function f =>
    cases hs
    rw [Item.isElementary, Bool.and_eq_true] at he
    exact he.1
  | foreign s =>
    cases hs
    exact he
  | type t => cases hs

/-- Functions are items, so their names are distinct if those of the items are. -/
theorem IsElementary.distinctFunctions (h : m.IsElementary) : m.DistinctFunctions := by
  have hsub : ∀ items : List Item,
      ((items.filterMap Item.signature?).map Signature.name).Sublist (items.map Item.name) := by
    intro items
    induction items with
    | nil => exact .slnil
    | cons item items ih =>
      cases item with
      | function f => exact ih.cons_cons _
      | foreign s => exact ih.cons_cons _
      | type t => exact ih.cons _
  exact h.distinct.sublist (hsub m.items)

open CompilationUnit

/-- The drafts of the functions of a module, in the unit that it is lowered to. -/
def drafts (m : Module) (options : Options) : List Function :=
  let declared := collectingAll declareItem m.items (.empty m.name options)
  match declared.result with
  | .ok _ => CompilationUnit.drafts m.items declared.state
  | .error _ => []

/-- Lowering the module, whether it succeeds or not, leaves room in all tables of the unit and of the drafts of its
functions. -/
def LeavesRoom (m : Module) (options : Options) : Prop :=
  HasRoom (m.lowerAs m.name options).state ∧ ∀ f ∈ m.drafts options, HasRoom f

instance (m : Module) (options : Options) : Decidable (m.LeavesRoom options) := inferInstanceAs (Decidable (_ ∧ _))

theorem drafts_of_gives {options : Options} {errors : List Error} {u : CompilationUnit}
    (h : Gives (collectingAll declareItem m.items) (.empty m.name options) errors u) :
    m.drafts options = CompilationUnit.drafts m.items u := by
  obtain ⟨hr, hs⟩ := h
  simp only [drafts, hr, hs]

/-- What lowering relies on while it comes to the items that are left. -/
structure Lowerable (m : Module) (items : List Item) (u : CompilationUnit) : Prop where
  subset : ∀ item ∈ items, item ∈ m.items
  names : u.OnlyFunctions
  keeps : u.Keeps m.signatures
  drafts : ∀ f ∈ CompilationUnit.drafts items u, HasRoom f

theorem IsElementary.declareItem_completes (h : m.IsElementary) {item : Item} (hitem : item ∈ m.items)
    {u : CompilationUnit} (hu : u.OnlyFunctions) : Completes (declareItem item) u fun _ u' => u'.OnlyFunctions := by
  cases item with
  | function f => exact declareFunction_completes hu (h.signatures _ (mem_signatures hitem _ rfl))
  | foreign s => exact declareFunction_completes hu (h.signatures _ (mem_signatures hitem _ rfl))
  | type t => cases h.items _ hitem

theorem IsElementary.lowerItem_completes (h : m.IsElementary) {item : Item} {items : List Item} {u : CompilationUnit}
    (hu : m.Lowerable (item :: items) u) : Completes (lowerItem item) u fun _ u' => m.Lowerable items u' := by
  have hitem := hu.subset item (List.mem_cons_self ..)
  have hcompletes : Completes (lowerItem item) u fun _ u' => u'.OnlyFunctions := by
    cases item with
    | function f =>
      have he := h.items _ hitem
      rw [Item.isElementary, Bool.and_eq_true] at he
      refine lowerFunction_completes hu.names h.signatures hu.keeps.declares (mem_signatures hitem _ rfl) he.2 ?_
      intro d hd
      refine hu.drafts d ?_
      rw [CompilationUnit.drafts]
      exact List.mem_append_left _ (Option.mem_toList.2 hd)
    | foreign s | type t => exact completes_pure hu.names
  refine hcompletes.mono_gives fun _ u' hg hnames => ?_
  refine ⟨fun it hit => hu.subset it (List.mem_cons_of_mem _ hit), hnames,
    hu.keeps.lowerItem (mem_signatures hitem) hg, fun d hd => hu.drafts d ?_⟩
  rw [drafts_cons_of_gives hg]
  exact List.mem_append_right _ hd

/-- **Both passes over an elementary module complete**, if its drafts have room. -/
theorem IsElementary.passes_completes (h : m.IsElementary) {options : Options}
    (hroom : ∀ f ∈ m.drafts options, HasRoom f) :
    Completes (passes m) (.empty m.name options) fun errors _ => errors = [] := by
  have hempty : (CompilationUnit.empty m.name options).OnlyFunctions := by
    intro n object hn
    cases hn
  have hdeclaring : Completes (collectingAll declareItem m.items) (.empty m.name options) fun errors u =>
      errors = [] ∧ m.Lowerable m.items u := by
    refine (collectingAll_completes (P := fun items u => (∀ item ∈ items, item ∈ m.items) ∧ u.OnlyFunctions) ?_
      ⟨fun _ hitem => hitem, hempty⟩).mono_gives ?_
    · rintro item items u ⟨hitems, hu⟩
      refine (h.declareItem_completes (hitems item (List.mem_cons_self ..)) hu).mono fun _ u' hu' => ⟨?_, hu'⟩
      exact fun it hit => hitems it (List.mem_cons_of_mem _ hit)
    · rintro _ u hg ⟨rfl, -, hu⟩
      have hkeeps := (announces_of_module h.distinctFunctions hg).toKeeps
      exact ⟨rfl, fun _ hitem => hitem, hu, hkeeps, drafts_of_gives hg ▸ hroom⟩
  refine completes_report_bind (hdeclaring.bind ?_)
  rintro _ u ⟨rfl, hu⟩
  refine (collectingAll_completes (P := m.Lowerable) h.lowerItem_completes hu).bind ?_
  rintro _ u' ⟨rfl, -⟩
  exact completes_pure rfl

theorem lowerAs_state (m : Module) (options : Options) :
    (m.lowerAs m.name options).state = (passes m (.empty m.name options)).state := by
  show (lowerProgram m (.empty m.name options)).state = _
  rw [lowerProgram_run]
  rcases passes m (.empty m.name options) with ⟨e | _ | ⟨e, es⟩, u, log⟩ <;> rfl

/-- **Elementary programs lower without errors.**  Lowering a module of functions over elementary types, whose names
are in scope, whose returns fit and whose calls are those of the declared functions, gives a unit, if no table of the
unit or of a function reaches `2 ^ 32` objects. -/
theorem lower_elementary (h : m.IsElementary) (options : Options) (hroom : m.LeavesRoom options) :
    ∃ u, m.lower options = .ok u := by
  obtain ⟨hunit, hdrafts⟩ := hroom
  rw [lowerAs_state] at hunit
  obtain ⟨_, u, ⟨hr, hs⟩, rfl⟩ := (h.passes_completes hdrafts).gives hunit
  have hrun : m.lowerAs m.name options = lowerProgram m (.empty m.name options) := rfl
  refine ⟨u, ?_⟩
  rw [Module.lower, hrun, lowerProgram_run, hr, hs]
  rfl

end Module

namespace Sample

/-- `fn note(x: f64)`, defined elsewhere. -/
def note : Signature := ⟨"note", [⟨"x", .elementary .f64, default⟩], none, default⟩

/-- `fn odd(n: u8) -> bool`. -/
def odd : Signature := ⟨"odd", [⟨"n", .elementary .u8, default⟩], some (.elementary .bool), default⟩

/-- `fn even(n: u8) -> bool`. -/
def even : Signature := ⟨"even", [⟨"n", .elementary .u8, default⟩], some (.elementary .bool), default⟩

/-- `{ if n == 300 { return 1 } else { note(n); return odd(n - 1) }; return n }` -/
def evenBody : Body :=
  .ofStatements
    [.branch (.binary .equal (.ident "n" .nil default) (.constant (.int 300) .nil default) .nil default)
      (.ofStatements [.give (some (.constant (.int 1) .nil default)) default] default)
      (some (.ofStatements
        [.effect (.call "note" [.ident "n" .nil default] note.ty false .nil default),
        .give (some (.call "odd" [.binary .subtract (.ident "n" .nil default) (.constant (.int 1) .nil default)
          (.elementary .u8) default] odd.ty false .nil default)) default] default)) default,
    .give (some (.ident "n" .nil default)) default]
    default

/-- `{ var n: f32 = f32(n); if even(n) { return false }; return n }` -/
def oddBody : Body :=
  .ofStatements
    [.declare "n" (.elementary .f32) (some (.ofConversion .f32 (.ident "n" .nil default) default)) default,
    .branch (.call "even" [.ident "n" .nil default] even.ty false .nil default)
      (.ofStatements [.give (some (.ofBool false default)) default] default) none default,
    .give (some (.ident "n" .nil default)) default]
    default

/-- Two functions that call each other, and one that is called for its effect. -/
def parity : Module :=
  ⟨"parity", [.foreign note, .function (.of even evenBody), .function (.of odd oddBody)], .empty⟩

/-- Constants out of range, a shadowed name, code after a branch that returns, and calls in a circle. -/
theorem parity_elementary :
    parity.IsElementary ∧ parity.LeavesRoom {} ∧ ∃ u, parity.lower {} = .ok u := by
  have hm : parity.IsElementary := by decide +kernel
  have hroom : parity.LeavesRoom {} := by decide +kernel
  exact ⟨hm, hroom, Module.lower_elementary hm {} hroom⟩

end Sample

end BlockForm
