import BlockForm.Proofs.Trace

/-!
# BlockForm.Proofs.WellTyped — functions that keep to the instruction table

`Function.WellTyped f u`: every instruction of `f` is typed by the rules of `BlockForm.Proofs.Typing` in the unit
`u` as it is now, with the type that its result value carries; conditions are truth values; and every type the
function mentions is one the unit knows.  Each step of lowering keeps it, although an instruction was checked
against the unit of its own time.
-/

namespace BlockForm

open Action

/-- The types an operation mentions. -/
def Operation.types : Operation → List LoweredType
  | alloca ty _ => [ty]
  | convert _ target => [target]
  | _ => []

namespace CompilationUnit

/-- Every type the unit mentions outside function bodies refers to a typedef of the unit. -/
structure Closed (u : CompilationUnit) : Prop where
  members : u.MembersKnown
  signatures : ∀ {name f}, u.function? name = some f → (∀ ty ∈ f.arguments, u.Knows ty) ∧ u.Knows f.returnType
  globals : ∀ l ∈ u.globals.values, u.Knows l.ty

variable {u u' : CompilationUnit}

theorem Closed.lowerType (h : u.Closed) {ty : Ty} {t : LoweredType} (hl : Gives (lowerType ty) u t u') :
    u'.Closed := by
  have hext := extends_of_lowerType hl
  have hle := hext.typedefs_size_le
  refine ⟨membersKnown_of_lowerType hl h.members, fun hf => ?_, fun l hm => ?_⟩
  · rw [function?, hext.functions] at hf
    obtain ⟨ha, hr⟩ := h.signatures hf
    exact ⟨fun ty hty => (ha ty hty).mono hle, hr.mono hle⟩
  · have : u'.globals = u.globals := globals_of_lowerType hl
    rw [this] at hm
    exact (h.globals l hm).mono hle

theorem Closed.internLiteral (h : u.Closed) {content : String} {id : GlobalId}
    (hi : Gives (internLiteral content) u id u') : u'.Closed := by
  rcases internLiteral_gives hi with ⟨-, rfl⟩ | ⟨hk, -, -, -, rfl⟩
  · exact h
  · refine ⟨h.members, h.signatures, fun l hl => ?_⟩
    simp only [Table.values, Table.entries_insert_of_not_mem hk, List.map_append, List.map_cons, List.map_nil,
      List.mem_append, List.mem_singleton] at hl
    rcases hl with hl | rfl
    · exact h.globals l hl
    · exact knows_elementary _ _

theorem Closed.globalAt? (h : u.Closed) {id : GlobalId} {l : Global} (hl : u.globalAt? id = some l) :
    u.Knows l.ty := by
  obtain ⟨e, he, rfl⟩ := Option.map_eq_some_iff.1 hl
  exact h.globals _ (List.mem_map_of_mem (List.mem_of_getElem? he))

end CompilationUnit

namespace Function

variable {f g : Function} {u u' : CompilationUnit}

/-- Every instruction is typed, and every type is known. -/
structure WellTyped (f : Function) (u : CompilationUnit) : Prop where
  arguments : ∀ ty ∈ f.arguments, u.Knows ty
  returnType : u.Knows f.returnType
  values : ∀ {v ty}, f.valueType? v = some ty → u.Knows ty
  /-- The result of an instruction has the type that the table gives. -/
  instructions : ∀ {i ins}, f.instruction? i = some ins → f.Types u ins.operation (f.valueType? ins.value)
  mentioned : ∀ {i ins}, f.instruction? i = some ins → ∀ ty ∈ ins.operation.types, u.Knows ty
  conditions : ∀ {b x e c}, f.block? b = some x → x.exit = some e → c ∈ e.conditions →
    f.valueType? c = some (.elementary .bool)

/-- The type of an instruction's result is settled when the instruction is made. -/
theorem Coherent.valueType?_of_grows (hc : f.Coherent) (hg : f.Grows g) {i : InstructionId} {ins : Instruction}
    (hi : f.instruction? i = some ins) : g.valueType? ins.value = f.valueType? ins.value := by
  rcases hc.value hi with hn | ⟨x, hx, -⟩
  · rw [hn, valueType?, valueType?, hg.value? hc.absent, hc.absent]
  · rw [valueType?, valueType?, hg.value? hx, hx]

/-- A function stays well typed as it grows, if what it gains is. -/
theorem WellTyped.grow (h : f.WellTyped u) (hc : f.Coherent) (hg : f.Grows g) (hu : u.Upholds u')
    (hv : ∀ {v ty}, g.valueType? v = some ty → f.valueType? v = some ty ∨ u'.Knows ty)
    (hi : ∀ {i ins}, g.instruction? i = some ins → f.instruction? i = some ins ∨
      (g.Types u' ins.operation (g.valueType? ins.value) ∧ ∀ ty ∈ ins.operation.types, u'.Knows ty))
    (hb : ∀ {b x e c}, g.block? b = some x → x.exit = some e → c ∈ e.conditions →
      f.block? b = some x ∨ g.valueType? c = some (.elementary .bool)) : g.WellTyped u' := by
  have hle : u.typedefs.size ≤ u'.typedefs.size := hu.typedefs.length_le
  refine ⟨?_, ?_, ?_, ?_, ?_, ?_⟩
  · rw [hg.arguments]
    exact fun ty hty => (h.arguments ty hty).mono hle
  · rw [hg.returnType]
    exact h.returnType.mono hle
  · intro v ty hty
    rcases hv hty with hty | hk
    · exact (h.values hty).mono hle
    · exact hk
  · intro i ins hins
    rcases hi hins with hins | ⟨ht, -⟩
    · rw [hc.valueType?_of_grows hg hins]
      exact (h.instructions hins).mono hg hu
    · exact ht
  · intro i ins hins
    rcases hi hins with hins | ⟨-, hk⟩
    · exact fun ty hty => (h.mentioned hins ty hty).mono hle
    · exact hk
  · intro b x e c hx he hcond
    rcases hb hx he hcond with hx | hty
    · exact hg.valueType? (h.conditions hx he hcond)
    · exact hty

end Function

namespace Site

variable {g g' : Site}

theorem Step.closed (h : Step g g') (hu : g.state.unit.Closed) : g'.state.unit.Closed := by
  cases h with
  | lowerType h => exact hu.lowerType h
  | intern h => exact hu.internLiteral h
  | _ => exact hu

/-- The type of a result is known if the types of the operands are. -/
theorem knows_of_types {f : Function} {u : CompilationUnit} {op : Operation} {t : LoweredType}
    (h : f.Types u op (some t)) (hu : u.Closed) (hv : ∀ {v ty}, f.valueType? v = some ty → u.Knows ty)
    (ha : ∀ ty n, op = .alloca ty n → u.Knows ty) : u.Knows t := by
  have member : ∀ {v : ValueId} {d : TypeDef} {i : Nat} {m : TypeMember}, f.PointsTo u v d →
      d.members[i]? = some m → u.Knows m.ty.pointerTo := by
    rintro v d i m ⟨ty, id, -, -, -, hd⟩ hm
    obtain ⟨e, he, rfl⟩ := Option.map_eq_some_iff.1 hd
    exact (hu.members _ (List.mem_map_of_mem (List.mem_of_getElem? he)) m (List.mem_of_getElem? hm)).pointerTo
  generalize ht : some t = t' at h
  cases h with
  | alloca => cases ht; exact (ha _ _ rfl).pointerTo
  | read hty => cases ht; exact (hv hty).pointee
  | objMemberAt hp _ hm => cases ht; exact member hp hm
  | unionMemberAt hp _ hm => cases ht; exact member hp hm
  | getUnionIdx => cases ht; exact CompilationUnit.knows_elementary _ _
  | convert _ _ hs => cases ht; exact CompilationUnit.knows_of_isScalar _ hs
  | call hc =>
    split at ht
    · cases ht
    · cases ht
      exact (hu.signatures hc).2
  | arith hl => cases ht; exact hv hl
  | cmp => cases ht; exact CompilationUnit.knows_elementary _ _
  | logic hl => cases ht; exact hv hl
  | write | setUnionIdx | giveNothing | give => cases ht

theorem types_known {f : Function} {u : CompilationUnit} {op : Operation} {t : Option LoweredType}
    (h : f.Types u op t) (ha : ∀ ty n, op = .alloca ty n → u.Knows ty) : ∀ ty ∈ op.types, u.Knows ty := by
  cases h with
  | alloca => simpa [Operation.types] using ha _ _ rfl
  | convert _ _ hs => simpa [Operation.types] using CompilationUnit.knows_of_isScalar u hs
  | _ => simp [Operation.types]

/-- The value of a new instruction has the type of its result. -/
theorem valueType?_resultValue {f : Function} (hc : f.Coherent) (op : Operation) (ty : Option LoweredType) :
    (f.withInstruction op ty).valueType? (f.resultValue ty) = ty := by
  rw [Function.valueType?, Function.value?_withInstruction]
  cases ty with
  | none => simp [Function.resultValue, hc.absent, Value.nil]
  | some t => simp [Function.resultValue]

/-- **Every step keeps the function well typed.** -/
theorem Step.wellTyped (h : Step g g') (hc : g.state.function.Coherent) (hu : g.state.unit.Closed)
    (hw : g.state.function.WellTyped g.state.unit) : g'.state.function.WellTyped g'.state.unit := by
  have hgrow := h.function_grows
  have hup := h.unit_extends.upholds
  cases h with
  | lowerType | intern => exact hw.grow hc hgrow hup Or.inl Or.inl fun hx _ _ => Or.inl hx
  | scopes => exact hw
  | @constant s k c e =>
    refine hw.grow hc hgrow hup (fun {v ty} hv => ?_) Or.inl fun hx _ _ => Or.inl hx
    simp only [Function.valueType?, Function.value?_withValue] at hv ⊢
    split at hv
    · cases hv
      exact Or.inr (CompilationUnit.knows_elementary _ _)
    · exact Or.inl hv
  | @literal s k id l hl =>
    refine hw.grow hc hgrow hup (fun {v ty} hv => ?_) Or.inl fun hx _ _ => Or.inl hx
    have hv' : ((s.function.withValue ⟨.literal id l.content, some l.ty, l.name⟩).value? v).bind Value.ty =
        some ty := hv
    rw [Function.value?_withValue] at hv'
    split at hv'
    · cases hv'
      exact Or.inr (hu.globalAt? hl)
    · exact Or.inl hv'
  | @emit s k op ty x hop hx hopen hty huse hknow =>
    refine hw.grow hc hgrow hup (fun {v t} hv => ?_) (fun {i ins} hi => ?_) fun {b y e c} hy he _ => ?_
    · have hv' : ((s.function.withInstruction op ty).value? v).bind Value.ty = some t := hv
      rw [Function.value?_withInstruction] at hv'
      split at hv'
      · simp only [Option.bind_some] at hv'
        subst hv'
        exact Or.inr (knows_of_types hty hu hw.values hknow)
      · exact Or.inl hv'
    · have hi' : (s.function.withInstruction op ty).instruction? i = some ins := hi
      rw [Function.instruction?_withInstruction] at hi'
      split at hi'
      · cases hi'
        refine Or.inr ⟨?_, types_known hty hknow⟩
        have hval : (s.function.withEmitted s.current x op ty).valueType? (s.function.resultValue ty) = ty :=
          valueType?_resultValue hc op ty
        rw [hval]
        exact hty.mono hgrow hup
      · exact Or.inl hi'
    · rw [Function.block?_withEmitted hx] at hy
      split at hy
      · cases hy
        simp [hopen] at he
      · exact Or.inl hy
  | newBlock =>
    refine hw.grow hc hgrow hup (fun {v t} hv => ?_) Or.inl fun {b y e c} hy he _ => ?_
    · simp only [Function.valueType?, Function.value?_withLabel] at hv ⊢
      split at hv
      · cases hv
      · exact Or.inl hv
    · rw [Function.block?_withLabel_eq] at hy
      split at hy
      · cases hy
        cases he
      · exact Or.inl hy
  | @leave s k e x hx hopen hgive hto hcond =>
    refine hw.grow hc hgrow hup Or.inl Or.inl fun {b y e' c} hy he hc' => ?_
    rw [Function.block?_withExit hx] at hy
    split at hy
    · cases hy
      cases he
      exact Or.inr (hgrow.valueType? (hcond c hc').2)
    · exact Or.inl hy
  | start => exact hw.grow hc hgrow hup Or.inl Or.inl fun hx _ _ => Or.inl hx
  | @give s k value x hend hx hopen hty huse =>
    refine hw.grow hc hgrow hup Or.inl (fun {i ins} hi => ?_) fun {b y e c} hy he hc' => ?_
    · have hi' : (s.function.withInstruction (.give value) none).instruction? i = some ins := hi
      rw [Function.instruction?_withInstruction] at hi'
      split at hi'
      · cases hi'
        refine Or.inr ⟨?_, by simp [Operation.types]⟩
        have hval : (s.function.withReturn s.current x value).valueType? (s.function.resultValue none) = none :=
          valueType?_resultValue hc (.give value) none
        rw [hval]
        exact hty.mono hgrow hup
      · exact Or.inl hi'
    · rw [Function.block?_withReturn hx] at hy
      split at hy
      · cases hy
        cases he
        cases hc'
      · exact Or.inl hy

end Site

end BlockForm
