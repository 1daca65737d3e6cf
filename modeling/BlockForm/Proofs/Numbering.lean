import Mathlib.Data.List.Nodup
import Mathlib.Data.List.Pairwise
import BlockForm.Proofs.ControlFlow
import BlockForm.Proofs.Effects
import BlockForm.Proofs.Listing
import BlockForm.Proofs.Representation

/-!
# BlockForm.Proofs.Numbering — code is laid out in the order in which it is numbered

Instructions get their handles when they are made, and results their identifiers `$k`.  Both are numbered in one go:
in a finished definition the blocks, read in layout order, hold the instructions `0`, `1`, `2` and so on, and the
results are called `$a`, `$a+1` and so on, where `a` is the number of arguments (`Function.InOrder`).

That the layout has the order of the handles is `LoweringState.Laid`.  The identifiers are followed through lowering by
`Function.Numbered`, which every effect keeps.
-/

namespace BlockForm

open Action

/-! ## The order of instructions -/

/-- The return that ends a block, if one does. -/
def Block.return? (x : Block) : Option InstructionId :=
  match x.exit with
  | some (.give id) => some id
  | _ => none

theorem Block.row_eq (x : Block) : x.row = x.instructions.toList ++ x.return?.toList := by
  unfold row return?
  cases x.exit with
  | none => simp
  | some e => cases e <;> simp

/-- The value of an instruction that has a result. -/
def Instruction.result? (x : Instruction) : Option ValueId := if x.value = Function.nilValue then none else some x.value

namespace Function

variable {f g : Function} {entry final : BlockId}

/-- The instructions of the placed blocks, each block after the one placed before it, and the return of the end block
after its instructions. -/
def stream (f : Function) : List InstructionId :=
  f.placedBlocks.flatMap fun x =>
    x.instructions.toList ++ if f.endLabel = some x.label then x.return?.toList else []

/-- The values of the instructions of the stream that have a result. -/
def streamResults (f : Function) : List ValueId :=
  (f.stream.filterMap f.instruction?).filterMap Instruction.result?

/-- Code is laid out in the order in which it is numbered. -/
structure InOrder (f : Function) : Prop where
  /-- The stream is all instructions in the order of their handles. -/
  stream : f.stream = (List.range f.instructions.size).map Handle.mk
  /-- Every instruction is in exactly one block. -/
  block : ∀ i, i.index < f.instructions.size → ∃! b, i ∈ f.row b
  /-- Arguments are called `$0`, `$1` and so on. -/
  arguments : f.argumentValues.toList.map f.idText = (List.range f.arguments.length).map variableText
  /-- Results go on where the arguments end. -/
  results : f.streamResults.map f.idText =
    (List.range' f.arguments.length f.streamResults.length).map variableText

/-- Only the end block returns, so the stream leaves no return out. -/
theorem ControlFlow.return_eq (h : f.ControlFlow entry final) {b : BlockId} {x : Block} (hx : f.block? b = some x) :
    (if f.endLabel = some x.label then x.return?.toList else []) = x.return?.toList := by
  by_cases hb : b = final
  · obtain ⟨y, hy, hl⟩ := h.endLabel
    rw [← hb, hx] at hy
    cases hy
    rw [if_pos hl]
  · have hnone : x.return? = none := by
      rw [Block.return?]
      split
      · next id hid => exact absurd ((h.returns hx).1 ⟨id, hid⟩) hb
      · rfl
    simp [hnone]

theorem ControlFlow.stream_eq (h : f.ControlFlow entry final) : f.stream = f.rows f.blockIds := by
  rw [stream, placedBlocks, rows, List.filterMap_eq_flatMap_toList, List.flatMap_assoc]
  refine List.flatMap_congr fun b _ => ?_
  rw [row]
  cases hx : f.block? b with
  | none => rfl
  | some x => simp [h.return_eq hx, Block.row_eq]

theorem nodup_allInstructions (f : Function) : f.allInstructions.Nodup :=
  List.nodup_range.map fun _ _ h => congrArg Handle.index h

/-- Where layout order is the order of handles, no instruction is in two blocks and none is in no block. -/
theorem ControlFlow.existsUnique_row (h : f.ControlFlow entry final) (ho : f.rows f.blockIds = f.allInstructions)
    {i : InstructionId} (hi : i.index < f.instructions.size) : ∃! b, i ∈ f.row b := by
  have hplaced : ∀ {b}, i ∈ f.row b → b ∈ f.blockIds := by
    intro b hb
    rw [row] at hb
    cases hx : f.block? b with
    | none =>
      rw [hx] at hb
      cases hb
    | some x => exact h.placed.2 ⟨x, hx⟩
  have hdisjoint : f.blockIds.Pairwise (Function.onFun List.Disjoint f.row) := by
    have hn := f.nodup_allInstructions
    rw [← ho, rows, List.nodup_flatMap] at hn
    exact hn.2
  obtain ⟨b, hb, hib⟩ := List.mem_flatMap.1 (ho ▸ mem_allInstructions.2 hi : i ∈ f.rows f.blockIds)
  refine ⟨b, hib, fun c hic => ?_⟩
  by_contra hne
  have : Std.Symm (Function.onFun List.Disjoint f.row) := ⟨fun _ _ hab i hi hj => hab hj hi⟩
  exact hdisjoint.forall (hplaced hic) hb hne hic hib

/-! ## The identifiers of results -/

/-- The values of the instructions that have a result, in the order in which the instructions were made. -/
def results (f : Function) : List ValueId := f.instructions.toList.filterMap Instruction.result?

/-- The variables are the arguments, and after them the results in the order in which they were made. -/
structure Numbered (f : Function) : Prop where
  absent : f.value? nilValue = some .nil
  arguments : f.ArgumentsFirst f.arguments
  valued : ∀ {v}, v ∈ f.results → ∃ x, f.value? v = some x
  next : f.nextVariable = f.arguments.length + f.results.length
  texts : f.results.map f.idText = (List.range' f.arguments.length f.results.length).map variableText

namespace Numbered

/-- Results keep their identifiers as values are added. -/
theorem map_idText (h : f.Numbered) (hv : ∀ {v x}, f.value? v = some x → g.value? v = some x) :
    f.results.map g.idText = f.results.map f.idText := by
  refine List.map_congr_left fun v hm => ?_
  obtain ⟨x, hx⟩ := h.valued hm
  rw [idText, idText, hx, hv hx]

/-- A change that makes no variable. -/
theorem congr (h : f.Numbered) (ha : g.arguments = f.arguments) (hav : g.argumentValues = f.argumentValues)
    (hk : g.nextVariable = f.nextVariable) (hr : g.results = f.results)
    (hv : ∀ {v x}, f.value? v = some x → g.value? v = some x) : g.Numbered where
  absent := hv h.absent
  arguments := by
    rw [ha]
    refine ⟨by rw [hav, h.arguments.count], fun hi => ?_⟩
    obtain ⟨hpos, hx⟩ := h.arguments.value hi
    exact ⟨by rw [argumentValue?, hav]; exact hpos, hv hx⟩
  valued := by
    intro v hm
    rw [hr] at hm
    obtain ⟨x, hx⟩ := h.valued hm
    exact ⟨x, hv hx⟩
  next := by rw [hk, ha, hr, h.next]
  texts := by rw [hr, ha, h.map_idText hv, h.texts]

theorem withValue (h : f.Numbered) (x : Value) : (f.withValue x).Numbered :=
  h.congr rfl rfl rfl rfl (grows_withValue x).value?

theorem withLabel (h : f.Numbered) : f.withLabel.Numbered := h.congr rfl rfl rfl rfl grows_withLabel.value?

theorem opened (h : f.Numbered) : f.opened.Numbered := h.congr rfl rfl rfl rfl Fresh.value?_opened

/-- A new instruction takes the next variable if it has a result, and none otherwise. -/
theorem withInstruction (h : f.Numbered) (op : Operation) (ty : Option LoweredType) :
    (f.withInstruction op ty).Numbered := by
  have hv : ∀ {v x}, f.value? v = some x → (f.withInstruction op ty).value? v = some x :=
    (grows_withInstruction op ty).value?
  cases ty with
  | none =>
    refine h.congr rfl rfl rfl ?_ hv
    simp [results, instructions_withInstruction, resultValue, Instruction.result?]
  | some ty =>
    have hne : f.nextValue ≠ nilValue := by
      intro heq
      have hnil := h.absent
      rw [← heq, value?_nextValue] at hnil
      cases hnil
    have hresults : (f.withInstruction op (some ty)).results = f.results ++ [f.nextValue] := by
      simp [results, instructions_withInstruction, resultValue, Instruction.result?, hne]
    have hnew : (f.withInstruction op (some ty)).value? f.nextValue =
        some ⟨.result f.nextInstruction, some ty, variableText f.nextVariable⟩ := by
      rw [value?_withInstruction, if_pos ⟨rfl, rfl⟩]
      rfl
    refine ⟨hv h.absent, h.arguments.grows (grows_withInstruction op (some ty)), ?_, ?_, ?_⟩
    · intro v hm
      rw [hresults, List.mem_append, List.mem_singleton] at hm
      rcases hm with hm | rfl
      · obtain ⟨x, hx⟩ := h.valued hm
        exact ⟨x, hv hx⟩
      · exact ⟨_, hnew⟩
    · rw [hresults, List.length_append, List.length_singleton]
      show f.nextVariable + 1 = f.arguments.length + (f.results.length + 1)
      rw [h.next, Nat.add_assoc]
    · have hlast : (f.withInstruction op (some ty)).idText f.nextValue =
          variableText (f.arguments.length + f.results.length) := by
        rw [idText, hnew, ← h.next]
        rfl
      rw [hresults, List.map_append, h.map_idText hv, h.texts, List.map_singleton, hlast, List.length_append,
        List.length_singleton, List.range'_1_concat, List.map_append, List.map_singleton]
      rfl

theorem put (h : f.Numbered) (b : BlockId) (x : Block) : (f.put b x).Numbered := h.congr rfl rfl rfl rfl id

end Numbered

/-! ## One definition -/

theorem nextVariable_of_pushArguments {tys : List LoweredType} : ∀ {f f' : Function} {position : Nat} {a : Unit},
    Gives (pushArguments position tys) f a f' → f'.nextVariable = f.nextVariable + tys.length := by
  induction tys with
  | nil =>
    intro f f' position a h
    obtain ⟨-, rfl⟩ := gives_pure.1 h
    rfl
  | cons ty tys ih =>
    intro f f' position a h
    obtain ⟨_, f₁, h₁, h₂⟩ := gives_bind.1 h
    obtain rfl := pushArgument_gives h₁
    rw [ih h₂, List.length_cons]
    show f.nextVariable + 1 + tys.length = _
    omega

/-- A definition that has room for its blocks starts with its arguments as its only variables. -/
theorem numbered_definition {name : String} {arguments : List LoweredType} {returnType : LoweredType}
    {f : Function} {blocks : BlockId × BlockId} (h : (definition name arguments returnType).result = .ok ())
    (ho : Gives openBody (definition name arguments returnType).state blocks f) :
    (definition name arguments returnType).state.Numbered := by
  obtain ⟨hfresh, -, ha, -⟩ := fresh_definition h
  have hroom : (definition name arguments returnType).state.values.size < Handle.limit := by
    obtain ⟨_, _, h₁, -⟩ := gives_bind.1 ho
    exact (newBlock_gives h₁).2.2.1
  obtain ⟨f, hf, -, hargs, -⟩ := definition_argumentsFirst hroom
  have hstate : (definition name arguments returnType).state = f := by rw [hf]
  have hnext : (definition name arguments returnType).state.nextVariable = 0 + arguments.length :=
    nextVariable_of_pushArguments (a := ()) ⟨h, rfl⟩
  have hresults : (definition name arguments returnType).state.results = [] := by
    rw [results, hfresh.instructions]
    rfl
  refine ⟨hfresh.absent, hstate ▸ hargs, ?_, ?_, ?_⟩
  · rw [hresults]
    simp
  · rw [hnext, hresults, ha]
    simp
  · rw [hresults]
    rfl

/-- The arguments of a numbered function are called by their positions. -/
theorem Numbered.map_argumentValues (h : f.Numbered) :
    f.argumentValues.toList.map f.idText = (List.range f.arguments.length).map variableText := by
  refine List.ext_getElem? fun i => ?_
  have hlist : f.argumentValues.toList[i]? = f.argumentValue? i := Array.getElem?_toList
  rw [List.getElem?_map, List.getElem?_map, hlist]
  by_cases hi : i < f.arguments.length
  · obtain ⟨hpos, hx⟩ := h.arguments.value (List.getElem?_eq_getElem hi)
    rw [hpos, List.getElem?_range hi, Option.map_some, Option.map_some, idText, hx]
    rfl
  · have hout : f.argumentValue? i = none := Array.getElem?_eq_none (by rw [h.arguments.count]; omega)
    rw [hout, List.getElem?_eq_none (by simpa using Nat.not_lt.1 hi)]
    rfl

end Function

/-- **Every effect leaves the variables numbered in order.** -/
theorem LoweringState.Effect.numbered {s s' : LoweringState} (h : Effect s s') (hs : s.function.Numbered) :
    s'.function.Numbered := by
  cases h with
  | scopes | lowerType => exact hs
  | literal _ _ hf =>
    rcases Function.literal_gives hf with ⟨-, rfl⟩ | ⟨-, -, -, rfl⟩
    · exact hs
    · exact hs.congr rfl rfl rfl rfl (Function.grows_withLiteral _ _).value?
  | constant => exact hs.withValue _
  | newBlock => exact hs.withLabel
  | startBlock | setReturnSlot => exact hs.congr rfl rfl rfl rfl id
  | emit _ _ op ty => exact (hs.withInstruction op ty).put _ _
  | leave => exact hs.put _ _
  | setReturn _ _ value => exact (hs.withInstruction (.give value) none).put _ _

namespace CompilationUnit

theorem defineFunction_numbered {u u' : CompilationUnit} {item : FunctionItem} {arguments : List LoweredType}
    {result : LoweredType} {d : Function} (h : Gives (defineFunction item arguments result) u d u') : d.Numbered := by
  obtain ⟨hd, entry, endBlock, f, s', ho, hl, rfl, -⟩ := defineFunction_gives h
  have hstart := Function.numbered_definition hd ho
  obtain ⟨-, -, rfl⟩ := Function.openBody_gives (Function.fresh_definition hd).1 ho
  have hmade : Lowering.Made (fun _ => True) (Lowering.lowerFunctionBody item) fun _ => True :=
    .lowerFunctionBody (fun _ => trivial) item
  exact (hmade.effects hl).2.keeps (P := fun s => s.function.Numbered) (fun he hs => he.numbered hs) hstart.opened

/-- A definition is laid out in the order in which it is numbered. -/
theorem Defined.inOrder {f : Function} (h : Defined f) : f.InOrder := by
  obtain ⟨item, arguments, result, u, u₁, u', hu, hsig, h⟩ := h
  have hnum := defineFunction_numbered h
  obtain ⟨-, hu₁, ha, hr, -⟩ := lowerSignature_gives hsig hu
  obtain ⟨f₀, g₁, g₂, g₃, g₄, g, hcourse, rfl, -, -, hgrow, hf, -⟩ := defineFunction_course hu₁ ha hr h
  have hflow := hcourse.controlFlow hf hgrow
  have hlaid := hcourse.done.sound.laid
  have hresults : g.state.function.streamResults = g.state.function.results := by
    rw [Function.streamResults, hflow.stream_eq]
    exact congrArg _ hlaid.listing_eq
  exact
    { stream := hflow.stream_eq.trans hlaid.order
      block := fun i hi => hflow.existsUnique_row hlaid.order hi
      arguments := hnum.map_argumentValues
      results := by rw [hresults, hnum.texts] }

end CompilationUnit

/-- **Code is laid out in the order in which it is numbered.**  In every definition of a lowered unit the blocks in
layout order, with the return of the end block, hold every instruction once and in the order of the handles; so each
instruction is in one block.  The results in this order are called `$k`, with `k` going up by one from the number of
arguments. -/
theorem Module.lower_inOrder {m : Module} {options : Options} {u : CompilationUnit} (h : m.lower options = .ok u)
    {f : Function} (hf : f ∈ u.functions.values) (hd : f.isDeclaration = false) : f.InOrder := by
  rcases Module.lower_defined h f hf with hdecl | hdef
  · rw [hd] at hdecl
    cases hdecl
  · exact hdef.inOrder

/-- In the sample, the first function is laid out in order, and it has instructions with results. -/
theorem Sample.smaller_inOrder :
    ∃ f ∈ Sample.lowered.functions.values, f.isDeclaration = false ∧ f.InOrder ∧ f.streamResults ≠ [] := by
  have hrun : Sample.lowered.functions.values.head?.any
      (fun f => f.isDeclaration = false ∧ f.streamResults ≠ []) = true := by decide +kernel
  obtain ⟨f, hf, hd⟩ := (Option.any_eq_true _ _).1 hrun
  have hmem := List.mem_of_mem_head? (Option.mem_def.2 hf)
  obtain ⟨hd, hres⟩ := of_decide_eq_true hd
  exact ⟨f, hmem, hd, Module.lower_inOrder Sample.lower_program hmem hd, hres⟩

end BlockForm
