import BlockForm.Lowering.Program
import BlockForm.Proofs.Correspondence

/-!
# BlockForm.Proofs.Echo — building the same function in two units

Building steps look at types and literals only through the unit they belong to, so a step that succeeds on a function
succeeds on a matching one, with the same handle, and the functions match again (`Function.Echoes`).  The instruction
table gives matching results for matching operations (`Function.Types.matches`).
-/

namespace BlockForm

open Action

namespace CompilationUnit

/-- Every function of `u` has one of the same name and a matching signature in `v`. -/
def Announced (u v : CompilationUnit) : Prop :=
  ∀ name f, u.function? name = some f → ∃ g, v.function? name = some g ∧
    List.Forall₂ (LoweredType.Matches u v) f.arguments g.arguments ∧ f.returnType.Matches u v g.returnType

end CompilationUnit

namespace Function

variable {u v : CompilationUnit} {f g : Function}

/-! ## The instruction table -/

namespace Matches

theorem valueType?_some (h : f.Matches u v g) {x : ValueId} {ty : LoweredType} (hx : f.valueType? x = some ty) :
    ∃ ty', g.valueType? x = some ty' ∧ ty.Matches u v ty' := by
  have hrel := h.valueType? x
  rw [hx] at hrel
  generalize g.valueType? x = o at hrel ⊢
  cases hrel with
  | some hab => exact ⟨_, rfl, hab⟩

theorem valueType?_eq (h : f.Matches u v g) {x : ValueId} {ty ty' : LoweredType} (hx : f.valueType? x = some ty)
    (hty : ty.Matches u v ty') : g.valueType? x = some ty' := by
  obtain ⟨ty₁, h₁, hm⟩ := h.valueType?_some hx
  rw [h₁, (hm.eq_iff hty).1 rfl]

theorem pointsTo (h : f.Matches u v g) (huv : u.Alike v) {x : ValueId} {t : TypeDef} (hx : f.PointsTo u x t) :
    ∃ t', g.PointsTo v x t' ∧ t.Matches u v t' := by
  obtain ⟨ty, i, hty, hp, hi, ht⟩ := hx
  obtain ⟨ty', hty', hm⟩ := h.valueType?_some hty
  obtain ⟨t₁, j, t', ht₁, hj, ht', hmt⟩ := hm.typedefs huv hi
  obtain rfl := Option.some.inj (ht₁.symm.trans ht)
  exact ⟨t', ⟨ty', j, hty', hm.isPointer_eq ▸ hp, hj, ht'⟩, hmt⟩

theorem discriminantInRange_eq (h : f.Matches u v g) {t t' : TypeDef} (ht : t.Matches u v t') (x : ValueId) :
    f.discriminantInRange t x = g.discriminantInRange t' x := by
  rw [Function.discriminantInRange, Function.discriminantInRange, h.constant?_eq, ht.members.length_eq]

theorem retypedConstant?_eq (h : f.Matches u v g) (x : ValueId) {u' v' : CompilationUnit} {a b : LoweredType}
    (hab : a.Matches u' v' b) :
    Lowering.retypedConstant? f x a = Lowering.retypedConstant? g x b := by
  rw [Lowering.retypedConstant?, Lowering.retypedConstant?, hab.isPointer_eq, hab.elementary?_eq, h.constant?_eq]

end Matches

/-- **The instruction table gives matching results** for matching operations in matching functions. -/
theorem Types.matches {op op' : Operation} {ty : Option LoweredType} (h : f.Types u op ty) (hfg : f.Matches u v g)
    (huv : u.Alike v) (hann : u.Announced v) (hop : op.Matches u v op') :
    ∃ ty', g.Types v op' ty' ∧ Option.Rel (LoweredType.Matches u v) ty ty' := by
  cases hop with
  | alloca count hty =>
    cases h with
    | alloca hp hc => exact ⟨_, .alloca (hty.isPointer_eq ▸ hp) hc, .some hty.pointerTo⟩
  | convert value hty =>
    cases h with
    | convert hs hs' ht =>
      obtain ⟨s, hs₁, hm⟩ := hfg.valueType?_some hs
      exact ⟨_, .convert hs₁ (hm.isScalar_eq ▸ hs') (hty.isScalar_eq ▸ ht), .some hty⟩
  | same types =>
    cases h with
    | alloca hp hc => cases types
    | convert hs hs' ht => cases types
    | read hm hp =>
      obtain ⟨ty', hm', hty⟩ := hfg.valueType?_some hm
      exact ⟨_, .read hm' (hty.isPointer_eq ▸ hp), .some hty.pointee⟩
    | write hm hp hv =>
      obtain ⟨ty', hm', hty⟩ := hfg.valueType?_some hm
      exact ⟨_, .write hm' (hty.isPointer_eq ▸ hp) (hfg.valueType?_eq hv hty.pointee), .none⟩
    | @objMemberAt object index t m ho hn hm =>
      obtain ⟨t', ho', ht⟩ := hfg.pointsTo huv ho
      have hrel := rel_getElem? ht.members index
      rw [hm] at hrel
      generalize hm' : t'.members[index]? = o at hrel
      cases hrel with
      | some hmm => exact ⟨_, .objMemberAt ho' (ht.isUnion ▸ hn) hm', .some hmm.2.pointerTo⟩
    | @unionMemberAt object index t m ho hn hm =>
      obtain ⟨t', ho', ht⟩ := hfg.pointsTo huv ho
      have hrel := rel_getElem? ht.members index
      rw [hm] at hrel
      generalize hm' : t'.members[index]? = o at hrel
      cases hrel with
      | some hmm => exact ⟨_, .unionMemberAt ho' (ht.isUnion ▸ hn) hm', .some hmm.2.pointerTo⟩
    | setUnionIdx ho hn hty hi hr =>
      obtain ⟨t', ho', ht⟩ := hfg.pointsTo huv ho
      obtain ⟨ty', hty', hm⟩ := hfg.valueType?_some hty
      exact ⟨_, .setUnionIdx ho' (ht.isUnion ▸ hn) hty' (hm.isInteger_eq ▸ hi)
        (hfg.discriminantInRange_eq ht _ ▸ hr), .none⟩
    | getUnionIdx ho hn =>
      obtain ⟨t', ho', ht⟩ := hfg.pointsTo huv ho
      exact ⟨_, .getUnionIdx ho' (ht.isUnion ▸ hn), .some (.elementary _ _)⟩
    | @call name args callee hc ha =>
      obtain ⟨callee', hc', hargs, hret⟩ := hann name callee hc
      refine ⟨_, .call hc' ?_, ?_⟩
      · exact forall₂_comp ha hargs fun hx hty => hfg.valueType?_eq hx hty
      · rw [hret.isNil_eq]
        split
        · exact .none
        · exact .some hret
    | arith hl hr hn =>
      obtain ⟨ty', hl', hty⟩ := hfg.valueType?_some hl
      exact ⟨_, .arith hl' (hfg.valueType?_eq hr hty) (hty.isNumeric_eq ▸ hn), .some hty⟩
    | cmp hl hr hn =>
      obtain ⟨ty', hl', hty⟩ := hfg.valueType?_some hl
      exact ⟨_, .cmp hl' (hfg.valueType?_eq hr hty) (hty.isScalar_eq ▸ hn), .some (.elementary _ _)⟩
    | logic hl hr hb hb' =>
      obtain ⟨ty', hl', hty⟩ := hfg.valueType?_some hl
      obtain ⟨ty'', hr', hty'⟩ := hfg.valueType?_some hr
      exact ⟨_, .logic hl' hr' (hty.isBool_eq ▸ hb) (hty'.isBool_eq ▸ hb'), .some hty⟩
    | giveNothing hn => exact ⟨_, .giveNothing (hfg.returnType.isNil_eq ▸ hn), .none⟩
    | give hv => exact ⟨_, .give (hfg.valueType?_eq hv hfg.returnType), .none⟩

/-! ## Building steps -/

/-- What `x` does to a function, `y` does to a matching one, with the same result. -/
structure Echoes {α : Type} (u v : CompilationUnit) (x y : Building α) : Prop where
  run : ∀ {f g a f'}, f.Matches u v g → Gives x f a f' → ∃ g', Gives y g a g' ∧ f'.Matches u v g'

section Rules

variable {α β : Type}

theorem echoes_pure (a : α) : Echoes u v (pure a) (pure a) := by
  refine ⟨fun {f g b f'} hfg h => ?_⟩
  obtain ⟨rfl, rfl⟩ := gives_pure.1 h
  exact ⟨g, gives_pure.2 ⟨rfl, rfl⟩, hfg⟩

theorem Echoes.bind {x y : Building α} {k k' : α → Building β} (hx : Echoes u v x y)
    (hk : ∀ a, Echoes u v (k a) (k' a)) : Echoes u v (x >>= k) (y >>= k') := by
  refine ⟨fun {f g b f'} hfg h => ?_⟩
  obtain ⟨a, f₁, h₁, h₂⟩ := gives_bind.1 h
  obtain ⟨g₁, h₁', hfg₁⟩ := hx.run hfg h₁
  obtain ⟨g', h₂', hfg'⟩ := (hk a).run hfg₁ h₂
  exact ⟨g', gives_bind.2 ⟨a, g₁, h₁', h₂'⟩, hfg'⟩

theorem echoes_get_bind {k k' : Function → Building α} (hk : ∀ {f g}, f.Matches u v g → Echoes u v (k f) (k' g)) :
    Echoes u v (Action.get >>= k) (Action.get >>= k') := by
  refine ⟨fun {f g a f'} hfg h => ?_⟩
  rw [gives_get_bind] at h
  obtain ⟨g', h', hfg'⟩ := (hk hfg).run hfg h
  exact ⟨g', gives_get_bind.2 h', hfg'⟩

theorem echoes_modify {c c' : Function → Function} (hc : ∀ {f g}, f.Matches u v g → (c f).Matches u v (c' g)) :
    Echoes u v (Action.modify c) (Action.modify c') := by
  refine ⟨fun {f g a f'} hfg h => ?_⟩
  rw [gives_modify] at h
  exact ⟨c' g, gives_modify.2 rfl, h ▸ hc hfg⟩

theorem echoes_set {f g : Function} (hfg : f.Matches u v g) : Echoes u v (Action.set f) (Action.set g) := by
  refine ⟨fun {_ _ a f'} _ h => ?_⟩
  rw [gives_set] at h
  exact ⟨g, gives_set.2 rfl, h ▸ hfg⟩

theorem echoes_report_bind {e e' : Event} {x y : Building α} (h : Echoes u v x y) :
    Echoes u v (Action.report e >>= fun _ => x) (Action.report e' >>= fun _ => y) := by
  refine ⟨fun {f g a f'} hfg hx => ?_⟩
  rw [gives_report_bind] at hx
  obtain ⟨g', hy, hfg'⟩ := h.run hfg hx
  exact ⟨g', gives_report_bind.2 hy, hfg'⟩

theorem echoes_fault (e e' : Fault) : Echoes u v (Action.fault e : Building α) (Action.fault e') :=
  ⟨fun _ h => absurd h not_gives_fault⟩

theorem echoes_handle (kind : HandleKind) (i : Nat) : Echoes u v (Action.handle kind i) (Action.handle kind i) := by
  refine ⟨fun {f g a f'} hfg h => ?_⟩
  obtain ⟨hlt, ha, rfl⟩ := gives_handle.1 h
  exact ⟨g, gives_handle.2 ⟨hlt, ha, rfl⟩, hfg⟩

theorem echoes_check_bind {γ δ : Type} {r : Except Fault γ} {r' : Except Fault δ} {k : γ → Building α}
    {k' : δ → Building α} (hr : ∀ {c}, r = .ok c → ∃ d, r' = .ok d ∧ Echoes u v (k c) (k' d)) :
    Echoes u v (Action.check r >>= k) (Action.check r' >>= k') := by
  refine ⟨fun {f g a f'} hfg h => ?_⟩
  obtain ⟨c, hc, hk⟩ := gives_check_bind.1 h
  obtain ⟨d, hd, he⟩ := hr hc
  obtain ⟨g', hg', hfg'⟩ := he.run hfg hk
  exact ⟨g', gives_check_bind.2 ⟨d, hd, hg'⟩, hfg'⟩

end Rules

theorem echoes_bindName (name : String) (object : Object) :
    Echoes u v (bindName name object) (bindName name object) := by
  refine ⟨fun {f g a f'} hfg h => ?_⟩
  obtain ⟨hn, rfl⟩ := bindName_gives.1 h
  rw [hfg.names] at hn
  exact ⟨_, bindName_gives.2 ⟨hn, rfl⟩, { hfg with names := by simp only [hfg.names] }⟩

theorem echoes_pushValue {x y : Value} (hxy : x.Matches u v y) : Echoes u v (pushValue x) (pushValue y) := by
  refine echoes_get_bind fun {f g} hfg => ?_
  have hsize : f.values.size = g.values.size := by simpa using hfg.values.length_eq
  rw [hsize]
  refine (echoes_handle _ _).bind fun id => Echoes.bind ?_ fun _ => echoes_pure id
  exact echoes_modify fun hfg => { hfg with values := rel_push hfg.values hxy }

theorem echoes_freshVariable : Echoes u v freshVariable freshVariable := by
  refine ⟨fun {f g a f'} hfg h => ?_⟩
  obtain ⟨rfl, rfl⟩ := freshVariable_gives.1 h
  refine ⟨_, freshVariable_gives.2 ⟨?_, rfl⟩, { hfg with nextVariable := by simp only [hfg.nextVariable] }⟩
  rw [variableName, variableName, hfg.nextVariable]

theorem echoes_freshLabel : Echoes u v freshLabel freshLabel := by
  refine ⟨fun {f g a f'} hfg h => ?_⟩
  obtain ⟨rfl, rfl⟩ := freshLabel_gives.1 h
  refine ⟨_, freshLabel_gives.2 ⟨?_, rfl⟩, { hfg with nextLabel := by simp only [hfg.nextLabel] }⟩
  rw [labelName, labelName, hfg.nextLabel]

theorem echoes_pushArgument (position : Nat) {a b : LoweredType} (hab : a.Matches u v b) :
    Echoes u v (pushArgument position a) (pushArgument position b) := by
  refine echoes_freshVariable.bind fun id => (echoes_bindName _ _).bind fun _ => ?_
  refine Echoes.bind (echoes_pushValue ⟨.same _, .some hab, rfl⟩) fun value => ?_
  exact echoes_modify fun hfg => { hfg with argumentValues := by simp only [hfg.argumentValues] }

theorem echoes_pushArguments {tys tys' : List LoweredType} (h : List.Forall₂ (LoweredType.Matches u v) tys tys')
    (position : Nat) : Echoes u v (pushArguments position tys) (pushArguments position tys') := by
  induction h generalizing position with
  | nil => exact echoes_pure ()
  | cons hab _ ih => exact (echoes_pushArgument position hab).bind fun _ => ih (position + 1)

theorem echoes_newBlock : Echoes u v newBlock newBlock := by
  refine echoes_get_bind fun {f g} hfg => ?_
  rw [hfg.isDeclaration_eq, hfg.blocks]
  split
  · exact echoes_fault _ _
  · refine (echoes_handle _ _).bind fun b => echoes_freshLabel.bind fun id => (echoes_bindName _ _).bind fun _ => ?_
    refine (echoes_pushValue ⟨.same _, .none, rfl⟩).bind fun label => Echoes.bind ?_ fun _ => echoes_pure b
    exact echoes_modify fun hfg => { hfg with blocks := by simp only [hfg.blocks] }

theorem echoes_appendBlock (b : BlockId) : Echoes u v (appendBlock b) (appendBlock b) := by
  refine echoes_get_bind fun {f g} hfg => ?_
  rw [hfg.layout]
  split
  · exact echoes_fault _ _
  · split
    · exact echoes_fault _ _
    · exact echoes_set { hfg with layout := rfl }

theorem echoes_labelOf (b : BlockId) : Echoes u v (labelOf b) (labelOf b) := by
  refine echoes_get_bind fun {f g} hfg => ?_
  rw [hfg.block?_eq]
  split
  · exact echoes_pure _
  · exact echoes_fault _ _

theorem echoes_constant (c : Constant) (e : Elementary) : Echoes u v (constant c e) (constant c e) :=
  echoes_pushValue ⟨.same _, .some (.elementary e false), rfl⟩

/-- A literal is remembered in both functions or in neither. -/
theorem Matches.lookup_eq (h : f.Matches u v g) {i j : GlobalId} {content : String}
    (hi : u.globals.keys[i.index]? = some content) (hj : v.globals.keys[j.index]? = some content) :
    f.literals.lookup i = g.literals.lookup j := by
  have hl := h.literals
  generalize f.literals = l at hl ⊢
  generalize g.literals = l' at hl ⊢
  induction hl with
  | nil => rfl
  | @cons p q _ _ hpq _ ih =>
    obtain ⟨hval, c, hp, hq⟩ := hpq
    have hsame : (i == p.1) = (j == q.1) := by
      rw [Bool.eq_iff_iff, beq_iff_eq, beq_iff_eq]
      constructor
      · rintro rfl
        obtain rfl := Option.some.inj (hi.symm.trans hp)
        exact congrArg Handle.mk (Table.index_unique hj hq)
      · rintro rfl
        obtain rfl := Option.some.inj (hj.symm.trans hq)
        exact congrArg Handle.mk (Table.index_unique hi hp)
    rw [List.lookup_cons, List.lookup_cons, hsame, hval, ih]

theorem echoes_literal {i j : GlobalId} {l : Global} {content : String} (hi : u.globals.keys[i.index]? = some content)
    (hj : v.globals.keys[j.index]? = some content) (hl : l.ty = .elementary .string) :
    Echoes u v (literal i l) (literal j l) := by
  refine echoes_get_bind fun {f g} hfg => ?_
  rw [hfg.lookup_eq hi hj]
  split
  · exact echoes_pure _
  · have hvalue :
        Value.Matches u v ⟨.literal i l.content, some l.ty, l.name⟩ ⟨.literal j l.content, some l.ty, l.name⟩ :=
      ⟨.literal i j l.content, .some (hl ▸ .elementary _ _), rfl⟩
    refine (echoes_pushValue hvalue).bind fun x => Echoes.bind ?_ fun _ => echoes_pure x
    exact echoes_modify fun hfg =>
      { hfg with literals := List.rel_append hfg.literals (.cons ⟨rfl, content, hi, hj⟩ .nil) }

theorem Matches.openBlock_eq (h : f.Matches u v g) (b : BlockId) : f.openBlock b = g.openBlock b := by
  rw [openBlock, openBlock, h.block?_eq, h.name]

theorem echoes_updateBlock (b : BlockId) (change : Block → Block) :
    Echoes u v (updateBlock b change) (updateBlock b change) := by
  refine echoes_get_bind fun {f g} hfg => ?_
  rw [hfg.openBlock_eq]
  refine echoes_check_bind fun {x} hx => ⟨x, hx, ?_⟩
  exact echoes_set { hfg with blocks := by simp only [hfg.blocks] }

theorem echoes_newInstruction {op op' : Operation} {ty ty' : Option LoweredType} (hop : op.Matches u v op')
    (hty : Option.Rel (LoweredType.Matches u v) ty ty') :
    Echoes u v (newInstruction op ty) (newInstruction op' ty') := by
  refine echoes_get_bind fun {f g} hfg => ?_
  have hsize : f.instructions.size = g.instructions.size := by simpa using hfg.instructions.length_eq
  rw [hsize]
  refine (echoes_handle _ _).bind fun id => ?_
  cases hty with
  | none =>
    refine (echoes_pure nilValue).bind fun value => Echoes.bind ?_ fun _ => echoes_pure id
    exact echoes_modify fun hfg => { hfg with instructions := rel_push hfg.instructions ⟨hop, rfl⟩ }
  | some hab =>
    refine echoes_freshVariable.bind fun name => (echoes_bindName _ _).bind fun _ => ?_
    refine Echoes.bind (echoes_pushValue ⟨.same _, .some hab, rfl⟩) fun value => Echoes.bind ?_ fun _ => echoes_pure id
    exact echoes_modify fun hfg => { hfg with instructions := rel_push hfg.instructions ⟨hop, rfl⟩ }

theorem Matches.resultOf_eq (h : f.Matches u v g) (id : InstructionId) : f.resultOf id = g.resultOf id :=
  elim_eq_of_rel (h.instruction? id) fun hij => hij.value

/-- The table is asked in a unit `w` that `u` upholds. -/
theorem echoes_pushInstruction {w : CompilationUnit} (hw : w.Upholds u) (huv : u.Alike v) (hann : u.Announced v)
    (b : BlockId) {op op' : Operation} (hop : op.Matches u v op') :
    Echoes u v (pushInstruction w b op) (pushInstruction v b op') := by
  unfold pushInstruction
  rw [hop.isTerminator_eq]
  split
  · exact echoes_fault _ _
  · refine echoes_get_bind fun {f g} hfg => ?_
    rw [hfg.openBlock_eq]
    refine echoes_check_bind fun {x} hx => ⟨x, hx, echoes_check_bind fun {ty} hty => ?_⟩
    obtain ⟨ty', hty', hrel⟩ := ((types_of_resultType hty).mono (.refl f) hw).matches hfg huv hann hop
    refine ⟨ty', resultType_of_types hty', (echoes_newInstruction hop hrel).bind fun id => ?_⟩
    refine echoes_get_bind fun {f g} hfg => echoes_report_bind ?_
    rw [hfg.resultOf_eq]
    exact (echoes_updateBlock b _).bind fun _ => echoes_pure _

theorem Matches.checkExit (h : f.Matches u v g) {exit : Exit} (he : f.checkExit exit = .ok ()) :
    g.checkExit exit = .ok () := by
  rw [checkExit_eq_ok] at he ⊢
  refine ⟨fun t ht => h.labelTarget?_eq t ▸ he.1 t ht, fun c hc => ?_⟩
  obtain ⟨ty, hty, hb⟩ := he.2 c hc
  obtain ⟨ty', hty', hm⟩ := h.valueType?_some (operandType_eq_ok_iff_valueType?.1 hty)
  exact ⟨ty', operandType_eq_ok_iff_valueType?.2 hty', hm.isBool_eq ▸ hb⟩

theorem echoes_setExit (b : BlockId) (exit : Exit) : Echoes u v (setExit b exit) (setExit b exit) := by
  refine echoes_get_bind fun {f g} hfg => echoes_check_bind fun {_} he => ?_
  exact ⟨(), hfg.checkExit he, echoes_updateBlock b _⟩

/-- A return does not depend on the unit it is checked in. -/
theorem echoes_setReturn (w w' : CompilationUnit) (b : BlockId) (value : Option ValueId) :
    Echoes u v (setReturn w b value) (setReturn w' b value) := by
  refine echoes_get_bind fun {f g} hfg => ?_
  rw [hfg.openBlock_eq]
  refine echoes_check_bind fun {x} hx => ⟨x, hx, echoes_check_bind fun {ty} hty => ?_⟩
  have hgive : g.Types w' (.give value) none := by
    cases types_of_resultType hty with
    | giveNothing hn => exact .giveNothing (hfg.returnType.isNil_eq ▸ hn)
    | give hv => exact .give (hfg.valueType?_eq hv hfg.returnType)
  refine ⟨none, resultType_of_types hgive, (echoes_newInstruction (.same rfl) .none).bind fun id => echoes_setExit b _⟩

theorem echoes_setReturnSlot (slot : ValueId) : Echoes u v (setReturnSlot slot) (setReturnSlot slot) :=
  echoes_modify fun hfg => { hfg with returnSlot := rfl }

theorem echoes_openBody : Echoes u v openBody openBody :=
  echoes_newBlock.bind fun entry => (echoes_appendBlock entry).bind fun _ => echoes_newBlock.bind fun endBlock =>
    (echoes_labelOf endBlock).bind fun _ =>
      Echoes.bind (echoes_modify fun hfg => { hfg with endLabel := rfl }) fun _ => echoes_pure _

theorem matches_declaration (name : String) {arguments arguments' : List LoweredType} {result result' : LoweredType}
    (ha : List.Forall₂ (LoweredType.Matches u v) arguments arguments') (hr : result.Matches u v result') :
    (declaration name arguments result).Matches u v (declaration name arguments' result') where
  name := rfl
  arguments := ha
  returnType := hr
  layout := rfl
  blocks := rfl
  instructions := .nil
  values := .cons ⟨.same _, .none, rfl⟩ .nil
  names := rfl
  argumentValues := rfl
  endLabel := rfl
  returnSlot := rfl
  literals := .nil
  nextVariable := rfl
  nextLabel := rfl

end Function

end BlockForm
