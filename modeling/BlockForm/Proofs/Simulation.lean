import BlockForm.Proofs.Evaluation
import BlockForm.Proofs.Region

/-!
# BlockForm.Proofs.Simulation — the run of the code that a step of lowering adds

A machine whose function has grown out of the one being lowered stands where lowering does (`Config.At`); `Passes`
says that it has run what lowering has added since.  One rule for each primitive step: what its instruction does, and
that earlier results are kept.
-/

namespace BlockForm

open Action

variable {V : Type}

namespace Function

variable {f g : Function}

/-- The value has been made, by an instruction of the function if it is a result. -/
def Made (f : Function) (v : ValueId) : Prop :=
  ∃ x, f.value? v = some x ∧ ∀ i, x.kind = .result i → i.index < f.instructions.size

theorem Made.mono {v : ValueId} (h : f.Made v) (hg : f.Grows g) : g.Made v := by
  obtain ⟨x, hx, hk⟩ := h
  exact ⟨x, hg.value? hx, fun i hi => Nat.lt_of_lt_of_le (hk i hi) hg.instructions_size_le⟩

theorem Grows.constant? (hg : f.Grows g) {v : ValueId} {x : Value} (hx : f.value? v = some x) :
    g.constant? v = f.constant? v := by
  rw [Function.constant?, Function.constant?, hg.value? hx, hx]

end Function

namespace Config

/-- The results of the first `n` instructions are the same. -/
def Agree (n : Nat) (c c' : Config V) : Prop := ∀ i : InstructionId, i.index < n → c'.registers i = c.registers i

theorem Agree.trans {n : Nat} {c c' c'' : Config V} (h₁ : Agree n c c') (h₂ : Agree n c' c'') : Agree n c c'' :=
  fun i hi => (h₂ i hi).trans (h₁ i hi)

theorem Agree.mono {m n : Nat} {c c' : Config V} (h : Agree n c c') (hmn : m ≤ n) : Agree m c c' :=
  fun i hi => h i (Nat.lt_of_lt_of_le hi hmn)

/-- The run stands where lowering does, after the instructions of the current block. -/
def At (c : Config V) (s : LoweringState) : Prop :=
  c.block = s.current ∧ ∃ x, s.function.block? s.current = some x ∧ c.position = x.instructions.size

end Config

namespace Machine

variable {M : Machine V} {f f' : Function} {s s' s'' : LoweringState} {c c' c'' : Config V}

/-- The machine has run what lowering has added between two states. -/
structure Passes (M : Machine V) (s s' : LoweringState) (c c' : Config V) : Prop where
  runs : M.Runs c c'
  arrived : c'.At s'
  agree : c.Agree s.function.instructions.size c'

theorem Passes.refl (h : c.At s') : M.Passes s s' c c := ⟨.refl c, h, fun _ _ => rfl⟩

theorem Passes.trans (h₁ : M.Passes s s' c c') (h₂ : M.Passes s' s'' c' c'')
    (hg : s.function.Grows s'.function) : M.Passes s s'' c c'' :=
  ⟨h₁.runs.trans h₂.runs, h₂.arrived, h₁.agree.trans (h₂.agree.mono hg.instructions_size_le)⟩

/-! ## Values -/

/-- What has been made keeps its meaning while later instructions run. -/
theorem datum_of_agree {v : ValueId} (hm : f.Made v) (hg : f.Grows M.function)
    (ha : c.Agree f.instructions.size c') : M.datum c' v = M.datum c v := by
  obtain ⟨x, hx, hk⟩ := hm
  simp only [datum, hg.value? hx, Option.bind_some]
  cases hkind : x.kind with
  | result i => exact ha i (hk i hkind)
  | _ => rfl

/-- The value stands for the operand. -/
structure Stands (M : Machine V) (f : Function) (c : Config V) (v : ValueId) (o : Operand V) : Prop where
  made : f.Made v
  ty : M.function.valueType? v = some (.elementary o.ty)
  value : M.datum c v = some (.scalar o.value)
  constant : M.function.constant? v = o.constant
  discrete : o.ty.isDiscrete = true
  fits : ∀ {k}, o.constant = some k → k.Fits o.ty

namespace Stands

variable {v : ValueId} {o : Operand V}

theorem mono (h : M.Stands f c v o) (hg : f.Grows f') (hF : f.Grows M.function)
    (ha : c.Agree f.instructions.size c') : M.Stands f' c' v o :=
  ⟨h.made.mono hg, h.ty, (datum_of_agree h.made hF ha).trans h.value, h.constant, h.discrete, h.fits⟩

theorem scalar (h : M.Stands f c v o) : M.scalar c v = some o.value := by
  rw [Machine.scalar, h.value]
  rfl

theorem typeOf (h : M.Stands f c v o) : M.typeOf v = some o.ty := by
  rw [Machine.typeOf, h.ty]
  rfl

/-- The type that lowering sees. -/
theorem eq_elementary (h : M.Stands f c v o) (hF : f.Grows M.function) {ty : LoweredType}
    (hty : f.operandType v = .ok ty) : ty = .elementary o.ty := by
  have hty' := hF.valueType? (Function.operandType_eq_ok_iff_valueType?.1 hty)
  exact Option.some.inj (hty'.symm.trans h.ty)

/-- The constant that lowering sees. -/
theorem constant?_eq (h : M.Stands f c v o) (hF : f.Grows M.function) : f.constant? v = o.constant := by
  obtain ⟨x, hx, -⟩ := h.made
  rw [← hF.constant? hx, h.constant]

/-- A constant stands for itself. -/
theorem value_of_constant (h : M.Stands f c v o) {k : Constant} (hk : o.constant = some k) :
    o.value = M.meaning.constant k o.ty := by
  have hconst := h.constant
  rw [hk] at hconst
  obtain ⟨x, hx, hxk⟩ := Option.bind_eq_some_iff.1 hconst
  obtain ⟨x', hx', hxt⟩ := Option.bind_eq_some_iff.1 h.ty
  obtain rfl := Option.some.inj (hx.symm.trans hx')
  have hkind : x.kind = .constant k := by
    unfold Value.constant? at hxk
    split at hxk
    · next k' hk' => cases hxk; exact hk'
    · cases hxk
  have hval := h.value
  simp only [datum, hx, Option.bind_some, hkind, hxt] at hval
  exact (Datum.scalar.inj (Option.some.inj hval)).symm

end Stands

/-! ## Instructions -/

theorem emit_grows {op : Operation} {v : ValueId} (h : Gives (Lowering.emit op) s v s') :
    s.function.Grows s'.function := by
  obtain ⟨f, hf, rfl⟩ := Lowering.gives_emit.1 h
  obtain ⟨x, ty, -, hx, hopen, -, -, -, -, rfl⟩ := Function.pushInstruction_gives hf
  exact Function.grows_withEmitted hx hopen op ty

/-- The types that the check of an instruction has found. -/
theorem emit_types {op : Operation} {v : ValueId} (h : Gives (Lowering.emit op) s v s') :
    ∃ ty, s.function.Types s.unit op ty ∧ (ty = none → v = Function.nilValue) ∧
      ∀ t, ty = some t → s'.function.valueType? v = some t := by
  obtain ⟨f, hf, rfl⟩ := Lowering.gives_emit.1 h
  obtain ⟨x, ty, -, hx, -, hty, -, -, rfl, rfl⟩ := Function.pushInstruction_gives hf
  refine ⟨ty, Function.resultType_eq_ok_iff.1 hty, ?_, ?_⟩
  · rintro rfl
    rfl
  · rintro t rfl
    show ((s.function.withInstruction op (some t)).value? s.function.nextValue).bind Value.ty = some t
    rw [Function.value?_withInstruction, if_pos ⟨rfl, rfl⟩]
    rfl

/-- **The rule of an instruction**: the machine executes it, and its result is what the instruction produces. -/
theorem emit_passes {op : Operation} {v : ValueId} (h : Gives (Lowering.emit op) s v s')
    (hF : s'.function.Grows M.function) (hc : c.At s) {effect : Option (Datum V) × List V × List (Call V)}
    (he : M.execute c op = some effect) :
    ∃ c' ty, M.Passes s s' c c' ∧ c'.cells = effect.2.1 ∧ c'.calls = effect.2.2 ∧
      s.function.Types s.unit op ty ∧ (ty = none → v = Function.nilValue) ∧
      ∀ t, ty = some t → s'.function.Made v ∧ M.function.valueType? v = some t ∧
        M.function.constant? v = none ∧ M.datum c' v = effect.1 := by
  obtain ⟨f, hf, rfl⟩ := Lowering.gives_emit.1 h
  obtain ⟨x, ty, -, hx, hopen, hty, -, -, rfl, rfl⟩ := Function.pushInstruction_gives hf
  obtain ⟨hblock, x', hx', hpos⟩ := hc
  obtain rfl := Option.some.inj (hx.symm.trans hx')
  have hself := Function.block?_withEmitted hx op ty s.current
  rw [if_pos rfl] at hself
  obtain ⟨y, hy, hgrow⟩ := hF.block hself
  have hinst : (s.function.withEmitted s.current x op ty).instruction? s.function.nextInstruction =
      some ⟨op, s.function.resultValue ty⟩ := by
    show (s.function.withInstruction op ty).instruction? _ = _
    rw [Function.instruction?_withInstruction, if_pos rfl]
  have hat : y.instructions[c.position]? = some s.function.nextInstruction := by
    have hprefix := getElem?_of_prefix hgrow.instructions (i := c.position) (x := s.function.nextInstruction)
      (by simp [hpos])
    simpa using hprefix
  have hstep : M.step c = some (after c s.function.nextInstruction effect) := by
    simp [step, hblock, hy, hat, hF.instruction? hinst, he]
  refine ⟨after c s.function.nextInstruction effect, ty, ⟨.single hstep, ⟨hblock, _, hself, by simp [after, hpos]⟩, ?_⟩,
    rfl, rfl, Function.resultType_eq_ok_iff.1 hty, ?_, ?_⟩
  · intro i hi
    have hne : i ≠ s.function.nextInstruction := by
      rintro rfl
      exact Nat.lt_irrefl _ hi
    exact Function.update_of_ne hne _ _
  · rintro rfl
    rfl
  · rintro t rfl
    have hval : (s.function.withEmitted s.current x op (some t)).value? s.function.nextValue =
        some ⟨.result s.function.nextInstruction, some t, s.function.variableName⟩ := by
      show (s.function.withInstruction op (some t)).value? _ = _
      rw [Function.value?_withInstruction, if_pos ⟨rfl, rfl⟩]
    have hres : s.function.resultValue (some t) = s.function.nextValue := rfl
    rw [hres]
    refine ⟨⟨_, hval, ?_⟩, ?_, ?_, ?_⟩
    · rintro i ⟨⟩
      exact Function.instruction?_lt hinst
    · rw [Function.valueType?, hF.value? hval]
      rfl
    · rw [Function.constant?, hF.value? hval]
      rfl
    · simp [datum, hF.value? hval, after]

/-- The result of an instruction stands for what it produces. -/
theorem stands_result {v : ValueId} {e : Elementary} {w : V} (hm : f.Made v)
    (hty : M.function.valueType? v = some (.elementary e)) (hk : M.function.constant? v = none)
    (hd : M.datum c v = some (.scalar w)) (he : e.isDiscrete = true) : M.Stands f c v ⟨e, w, none⟩ :=
  ⟨hm, hty, hd, hk, he, nofun⟩

theorem constant_passes {k : Constant} {e : Elementary} {v : ValueId} (h : Gives (Lowering.constant k e) s v s')
    (hF : s'.function.Grows M.function) (hc : c.At s) (hk : k.Fits e) (he : e.isDiscrete = true) :
    M.Passes s s' c c ∧ M.Stands s'.function c v ⟨e, M.meaning.constant k e, some k⟩ := by
  obtain ⟨f, hf, rfl⟩ := Lowering.gives_inFunction.1 h
  obtain ⟨-, rfl, rfl⟩ := Function.constant_gives.1 hf
  have hval : (s.function.withValue ⟨.constant k, some (.elementary e), k.text⟩).value? s.function.nextValue =
      some ⟨.constant k, some (.elementary e), k.text⟩ := by
    rw [Function.value?_withValue, if_pos rfl]
  have hF' := hF.value? hval
  refine ⟨.refl hc, ⟨_, hval, nofun⟩, ?_, ?_, ?_, he, ?_⟩
  · rw [Function.valueType?, hF']
    rfl
  · simp only [datum, hF', Option.bind_some]
    rfl
  · rw [Function.constant?, hF']
    rfl
  · rintro _ ⟨⟩
    exact hk

theorem constant_grows {k : Constant} {e : Elementary} {v : ValueId} (h : Gives (Lowering.constant k e) s v s') :
    s.function.Grows s'.function := by
  obtain ⟨f, hf, rfl⟩ := Lowering.gives_inFunction.1 h
  obtain ⟨-, rfl, rfl⟩ := Function.constant_gives.1 hf
  exact Function.grows_withValue _

/-! ## Conversions -/

/-- What a conversion does: nothing, a new constant, or an instruction. -/
theorem coerce_gives {v w : ValueId} {target : LoweredType} (h : Gives (Lowering.coerce v target) s w s') :
    ∃ ty, s.function.operandType v = .ok ty ∧
      ((ty = target ∧ w = v ∧ s' = s) ∨
        (ty ≠ target ∧ ∃ k e, Lowering.retypedConstant? s.function v target = some (k, e) ∧
          Gives (Lowering.constant k e) s w s') ∨
        (ty ≠ target ∧ Lowering.retypedConstant? s.function v target = none ∧ ty.isScalar = true ∧
          target.isScalar = true ∧ Gives (Lowering.emit (.convert v target)) s w s')) := by
  simp only [Lowering.coerce, gives_bind (x := Lowering.typeOf _), Lowering.gives_typeOf] at h
  obtain ⟨ty, _, ⟨hty, rfl⟩, h⟩ := h
  refine ⟨ty, hty, ?_⟩
  rw [gives_ite] at h
  rcases h with ⟨he, h⟩ | ⟨hne, h⟩
  · obtain ⟨rfl, rfl⟩ := gives_pure.1 h
    exact Or.inl ⟨he, rfl, rfl⟩
  · rw [gives_get_bind] at h
    cases hk : Lowering.retypedConstant? s.function v target with
    | some p =>
      rw [hk] at h
      exact Or.inr (Or.inl ⟨hne, p.1, p.2, rfl, h⟩)
    | none =>
      rw [hk] at h
      simp only [gives_ite, not_gives_fault, and_false, or_false, Bool.and_eq_true] at h
      exact Or.inr (Or.inr ⟨hne, rfl, h.1.1, h.1.2, h.2⟩)

/-- The new value has the type that was asked for. -/
theorem coerce_target {v w : ValueId} {target : LoweredType} (h : Gives (Lowering.coerce v target) s w s') :
    s'.function.valueType? w = some target := by
  obtain ⟨ty, hty, ⟨rfl, rfl, rfl⟩ | ⟨-, k, e, hk, h⟩ | ⟨-, -, -, -, h⟩⟩ := coerce_gives h
  · exact Function.operandType_eq_ok_iff_valueType?.1 hty
  · have htarget : target = .elementary e := by
      unfold Lowering.retypedConstant? at hk
      split at hk
      · cases hk
      · next hp =>
        split at hk
        · next k' e' _ he =>
          obtain ⟨_, -, hpair⟩ := Option.map_eq_some_iff.1 hk
          cases hpair
          obtain ⟨kind, pointer⟩ := target
          cases kind with
          | elementary e'' =>
            cases he
            simpa [LoweredType.elementary] using hp
          | composite id => cases he
        · cases hk
    obtain ⟨f, hf, rfl⟩ := Lowering.gives_inFunction.1 h
    obtain ⟨-, rfl, rfl⟩ := Function.constant_gives.1 hf
    show ((s.function.withValue _).value? s.function.nextValue).bind Value.ty = _
    rw [Function.value?_withValue, if_pos rfl, htarget]
    rfl
  · obtain ⟨ty, htypes, -, hsome⟩ := emit_types h
    cases htypes with
    | convert => exact hsome _ rfl

theorem coerce_grows {v w : ValueId} {target : LoweredType} (h : Gives (Lowering.coerce v target) s w s') :
    s.function.Grows s'.function := by
  obtain ⟨ty, -, ⟨-, -, rfl⟩ | ⟨-, k, e, -, h⟩ | ⟨-, -, -, -, h⟩⟩ := coerce_gives h
  · exact .refl _
  · exact constant_grows h
  · exact emit_grows h

/-- Which constants lowering makes again with another type. -/
theorem Stands.retypedConstant?_eq {v : ValueId} {o : Operand V} (h : M.Stands f c v o) (hF : f.Grows M.function)
    (t : Elementary) :
    Lowering.retypedConstant? f v (.elementary t) = (o.constant.bind fun k => k.retyped? t).map (·, t) := by
  unfold Lowering.retypedConstant?
  rw [if_neg (by simp [LoweredType.elementary]), h.constant?_eq hF]
  cases o.constant <;> rfl

theorem elementary_inj {e e' : Elementary} (h : LoweredType.elementary e = .elementary e') : e = e' := by
  simpa [LoweredType.elementary] using h

/-- **The rule of conversion**: the new value stands for the converted operand, although a constant is converted when
the program is lowered. -/
theorem coerce_passes (hI : M.meaning.Lawful) {v w : ValueId} {t : Elementary} {o : Operand V}
    (h : Gives (Lowering.coerce v (.elementary t)) s w s') (ht : t.isDiscrete = true)
    (hF : s'.function.Grows M.function) (hc : c.At s) (hv : M.Stands s.function c v o) :
    ∃ c', M.Passes s s' c c' ∧ c'.cells = c.cells ∧ c'.calls = c.calls ∧
      M.Stands s'.function c' w (o.coerce M.meaning t) := by
  have hF₀ := (coerce_grows h).trans hF
  obtain ⟨ty, hty, hcases⟩ := coerce_gives h
  obtain rfl := hv.eq_elementary hF₀ hty
  rw [hv.retypedConstant?_eq hF₀] at hcases
  rcases hcases with ⟨he, rfl, rfl⟩ | ⟨hne, k', e, hk, h⟩ | ⟨hne, hk, -, -, h⟩
  · have hsame : o.coerce M.meaning t = o := if_pos (elementary_inj he)
    rw [hsame]
    exact ⟨c, .refl hc, rfl, rfl, hv⟩
  · have hne' : o.ty ≠ t := fun he => hne (by rw [he])
    obtain ⟨k, hbind, hpair⟩ := Option.map_eq_some_iff.1 hk
    cases hpair
    obtain ⟨k₀, hk₀, hret⟩ := Option.bind_eq_some_iff.1 hbind
    obtain ⟨hp, hs⟩ := constant_passes h hF hc (Site.fits_of_retyped hret) ht
    have hlaw := hI hv.discrete ht (hv.fits hk₀) hret
    rw [← hv.value_of_constant hk₀] at hlaw
    refine ⟨c, hp, rfl, rfl, ?_⟩
    rw [Operand.coerce, if_neg hne', hlaw, hbind]
    exact hs
  · have hne' : o.ty ≠ t := fun he => hne (by rw [he])
    have hexec : M.execute c (.convert v (.elementary t)) =
        some (some (.scalar (M.meaning.convert o.ty t o.value)), c.cells, c.calls) := by
      simp [execute, hv.typeOf, hv.scalar, LoweredType.elementary, LoweredType.elementary?]
    obtain ⟨c', ty, hp, hcells, hcalls, htypes, -, hres⟩ := emit_passes h hF hc hexec
    cases htypes with
    | convert =>
      obtain ⟨hm, hty, hconst, hd⟩ := hres _ rfl
      refine ⟨c', hp, hcells, hcalls, ?_⟩
      rw [Operand.coerce, if_neg hne', Option.map_eq_none_iff.1 hk]
      exact stands_result hm hty hconst hd ht

/-! ## Constants and operators -/

theorem lowerConstant_passes {k : Constant} {ty : Ty} {v : ValueId} (h : Gives (Lowering.lowerConstant k ty) s v s')
    (hk : k.isDiscrete = true) (hty : ty.elementary?.all Elementary.isDiscrete = true)
    (hF : s'.function.Grows M.function) (hc : c.At s) :
    M.Passes s s' c c ∧ M.Stands s'.function c v (.ofConstant M.meaning k ty) := by
  unfold Lowering.lowerConstant at h
  unfold Operand.ofConstant
  cases hr : ty.elementary?.bind fun e => (k.retyped? e).map (·, e) with
  | some p =>
    rw [hr] at h
    obtain ⟨e, he, hp⟩ := Option.bind_eq_some_iff.1 hr
    obtain ⟨k', hk', rfl⟩ := Option.map_eq_some_iff.1 hp
    rw [he] at hty
    exact constant_passes h hF hc (Site.fits_of_retyped hk') hty
  | none =>
    rw [hr] at h
    refine constant_passes h hF hc (Site.fits_defaultType k) ?_
    cases k with
    | int | bool => rfl
    | float => cases hk

theorem coerce_ty (I : Interpretation V) (o : Operand V) (t : Elementary) : (o.coerce I t).ty = t := by
  unfold Operand.coerce
  split
  · next h => exact h
  · rfl

/-- Two operands are made to fit and joined by an instruction. -/
theorem operate_passes (hI : M.meaning.Lawful) {t e : Elementary} (ht : t.isDiscrete = true)
    (he : e.isDiscrete = true) {mk : ValueId → ValueId → Operation} (compute : V → V → V)
    (hexec : ∀ {f c a b l r}, M.Stands f c a l → M.Stands f c b r → l.ty = t →
      M.execute c (mk a b) = some (some (.scalar (compute l.value r.value)), c.cells, c.calls))
    (htype : ∀ {f u a b ty}, Function.Types f u (mk a b) ty → f.valueType? a = some (.elementary t) →
      ty = some (.elementary e))
    {lhs rhs v : ValueId} {l r : Operand V}
    (h : Gives (do
      let left ← Lowering.coerce lhs (.elementary t)
      let right ← Lowering.coerce rhs (.elementary t)
      Lowering.emit (mk left right)) s v s')
    (hF : s'.function.Grows M.function) (hc : c.At s) (hl : M.Stands s.function c lhs l)
    (hr : M.Stands s.function c rhs r) :
    ∃ c', M.Passes s s' c c' ∧ c'.cells = c.cells ∧ c'.calls = c.calls ∧ M.Stands s'.function c' v
      ⟨e, compute (l.coerce M.meaning t).value (r.coerce M.meaning t).value, none⟩ := by
  simp only [gives_bind] at h
  obtain ⟨left, s₁, h₁, right, s₂, h₂, h₃⟩ := h
  have g₁ := coerce_grows h₁
  have g₂ := coerce_grows h₂
  have hF₂ := (emit_grows h₃).trans hF
  have hF₁ := g₂.trans hF₂
  obtain ⟨c₁, p₁, m₁, e₁, hleft⟩ := coerce_passes hI h₁ ht hF₁ hc hl
  obtain ⟨c₂, p₂, m₂, e₂, hright⟩ := coerce_passes hI h₂ ht hF₂ p₁.arrived (hr.mono g₁ (g₁.trans hF₁) p₁.agree)
  have hleft₂ := hleft.mono g₂ hF₁ p₂.agree
  obtain ⟨c₃, ty, p₃, m₃, e₃, htypes, -, hres⟩ :=
    emit_passes h₃ hF p₂.arrived (hexec hleft₂ hright (coerce_ty ..))
  have hlt : s₂.function.valueType? left = some (.elementary t) := by
    obtain ⟨x, hx, -⟩ := hleft₂.made
    have hty := hleft₂.ty
    rw [coerce_ty, Function.valueType?, hF₂.value? hx] at hty
    rw [Function.valueType?, hx]
    exact hty
  obtain ⟨hm, hty, hconst, hd⟩ := hres _ (htype htypes hlt)
  exact ⟨c₃, (p₁.trans p₂ g₁).trans p₃ (g₁.trans g₂), by rw [m₃, m₂, m₁], by rw [e₃, e₂, e₁],
    stands_result hm hty hconst hd he⟩

theorem comparisonType_eq {lhs rhs : ValueId} {l r : Operand V} (hl : M.Stands f c lhs l) (hr : M.Stands f c rhs r)
    (hF : f.Grows M.function) :
    f.comparisonType lhs rhs (.elementary l.ty) (.elementary r.ty) = .elementary (l.comparisonType r) := by
  have hwidth : ∀ e : Elementary, ((LoweredType.elementary e).elementary?.bind Elementary.width?).getD 0 =
      e.width?.getD 0 := fun _ => rfl
  simp only [Function.comparisonType, Operand.comparisonType, hr.retypedConstant?_eq hF, hl.retypedConstant?_eq hF,
    Option.isSome_map, hwidth]
  split
  · rfl
  · split
    · rfl
    · split <;> rfl

theorem comparisonType_mem (l r : Operand V) : l.comparisonType r = l.ty ∨ l.comparisonType r = r.ty := by
  unfold Operand.comparisonType
  split
  · exact Or.inl rfl
  · split
    · exact Or.inr rfl
    · split
      · exact Or.inr rfl
      · exact Or.inl rfl

theorem lowerType_state {ty : Ty} {t : LoweredType} (h : Gives (Lowering.lowerType ty) s t s') :
    s'.function = s.function ∧ s'.current = s.current ∧ s'.scopes = s.scopes := by
  obtain ⟨u, -, rfl⟩ := Lowering.gives_inUnit.1 h
  exact ⟨rfl, rfl, rfl⟩

theorem lowerType_elementary {ty : Ty} {e : Elementary} (he : ty.elementary? = some e) {t : LoweredType}
    (h : Gives (Lowering.lowerType ty) s t s') : t = .elementary e ∧ s' = s := by
  obtain ⟨u, hu, rfl⟩ := Lowering.gives_inUnit.1 h
  rcases CompilationUnit.lowerType_gives hu with ⟨e', he', rfl, rfl⟩ | ⟨hn, -⟩ | ⟨hn, -⟩
  · rw [he] at he'
    cases he'
    exact ⟨rfl, rfl⟩
  · simp [he] at hn
  · simp [he] at hn

/-- **The rule of binary operators.** -/
theorem lowerOperator_passes (hI : M.meaning.Lawful) {op : BinaryOperator} {ty : Ty} {lhs rhs v : ValueId}
    {l r : Operand V} (h : Gives (Lowering.lowerOperator op ty lhs rhs) s v s')
    (hop : (match op.class with
      | .arith _ => ty.elementary?.any Elementary.isDiscrete
      | .cmp _ | .logic _ => true) = true)
    (hF₀ : s.function.Grows M.function) (hF : s'.function.Grows M.function) (hc : c.At s)
    (hl : M.Stands s.function c lhs l) (hr : M.Stands s.function c rhs r) :
    ∃ c' o, Operand.combine M.meaning op ty l r = some o ∧ M.Passes s s' c c' ∧ c'.cells = c.cells ∧
      c'.calls = c.calls ∧ M.Stands s'.function c' v o := by
  unfold Lowering.lowerOperator at h
  unfold Operand.combine
  cases hcl : op.class with
  | arith a =>
    rw [hcl] at h hop
    obtain ⟨e, he, hd⟩ := (Option.any_eq_true _ _).1 hop
    obtain ⟨target, s₁, h₁, h₂⟩ := gives_bind.1 h
    obtain ⟨rfl, rfl⟩ := lowerType_elementary he h₁
    obtain ⟨c', hp, hm, hcalls, hst⟩ := operate_passes hI hd hd (M.meaning.arith a e)
      (fun hl hr hlt => by simp [execute, hl.typeOf, hl.scalar, hr.scalar, hlt])
      (fun ht hty => by
        cases ht with
        | arith hl => rw [← hty, hl]) h₂ hF hc hl hr
    exact ⟨c', _, by rw [he]; rfl, hp, hm, hcalls, hst⟩
  | cmp a =>
    rw [hcl] at h
    simp only [gives_bind (x := Lowering.typeOf _), Lowering.gives_typeOf, gives_get_bind] at h
    obtain ⟨lt, _, ⟨hlt, rfl⟩, rt, _, ⟨hrt, rfl⟩, h⟩ := h
    obtain rfl := hl.eq_elementary hF₀ hlt
    obtain rfl := hr.eq_elementary hF₀ hrt
    rw [comparisonType_eq hl hr hF₀] at h
    have hd : (l.comparisonType r).isDiscrete = true := by
      rcases comparisonType_mem l r with he | he
      · rw [he, hl.discrete]
      · rw [he, hr.discrete]
    obtain ⟨c', hp, hm, hcalls, hst⟩ := operate_passes hI hd rfl (M.meaning.cmp a (l.comparisonType r))
      (fun hl hr hlt => by simp [execute, hl.typeOf, hl.scalar, hr.scalar, hlt])
      (fun ht _ => by
        cases ht with
        | cmp => rfl) h hF hc hl hr
    exact ⟨c', _, rfl, hp, hm, hcalls, hst⟩
  | logic a =>
    rw [hcl] at h
    obtain ⟨c', hp, hm, hcalls, hst⟩ := operate_passes hI rfl rfl (M.meaning.logic a)
      (fun hl hr _ => by simp [execute, hl.scalar, hr.scalar])
      (fun ht hty => by
        cases ht with
        | logic hl => rw [← hty, hl]) h hF hc hl hr
    exact ⟨c', _, rfl, hp, hm, hcalls, hst⟩

/-! ## Slots -/

/-- The slot is the address of a cell that holds a value of the type. -/
structure Holds (M : Machine V) (f : Function) (c : Config V) (slot : ValueId) (t : Elementary) (v : V) : Prop where
  made : f.Made slot
  ty : M.function.valueType? slot = some (LoweredType.elementary t).pointerTo
  cell : ∃ n, M.datum c slot = some (.cell n) ∧ c.cells[n]? = some v
  discrete : t.isDiscrete = true

namespace Holds

variable {slot : ValueId} {t : Elementary} {v : V}

theorem mono (h : M.Holds f c slot t v) (hg : f.Grows f') (hF : f.Grows M.function)
    (ha : c.Agree f.instructions.size c') (hcells : c.cells <+: c'.cells) : M.Holds f' c' slot t v := by
  obtain ⟨n, hn, hv⟩ := h.cell
  exact ⟨h.made.mono hg, h.ty, ⟨n, (datum_of_agree h.made hF ha).trans hn, getElem?_of_prefix hcells hv⟩, h.discrete⟩

/-- The type that lowering sees. -/
theorem eq_pointerTo (h : M.Holds f c slot t v) (hF : f.Grows M.function) {ty : LoweredType}
    (hty : f.operandType slot = .ok ty) : ty = (LoweredType.elementary t).pointerTo := by
  have hty' := hF.valueType? (Function.operandType_eq_ok_iff_valueType?.1 hty)
  exact Option.some.inj (hty'.symm.trans h.ty)

end Holds

theorem load_grows {slot v : ValueId} (h : Gives (Lowering.load slot) s v s') : s.function.Grows s'.function := by
  simp only [Lowering.load, gives_bind (x := Lowering.typeOf _), Lowering.gives_typeOf, gives_ite, gives_pure] at h
  obtain ⟨ty, _, ⟨-, rfl⟩, ⟨-, -, rfl⟩ | ⟨-, h⟩⟩ := h
  · exact .refl _
  · exact emit_grows h

theorem load_passes {slot v : ValueId} {t : Elementary} {w : V} (h : Gives (Lowering.load slot) s v s')
    (hF : s'.function.Grows M.function) (hc : c.At s) (hs : M.Holds s.function c slot t w) :
    ∃ c', M.Passes s s' c c' ∧ c'.cells = c.cells ∧ c'.calls = c.calls ∧ M.Stands s'.function c' v ⟨t, w, none⟩ := by
  have hF₀ := (load_grows h).trans hF
  simp only [Lowering.load, gives_bind (x := Lowering.typeOf _), Lowering.gives_typeOf] at h
  obtain ⟨ty, _, ⟨hty, rfl⟩, h⟩ := h
  obtain rfl := hs.eq_pointerTo hF₀ hty
  rw [if_neg (by simp [LoweredType.isComposite, LoweredType.typedef?, LoweredType.pointerTo, LoweredType.elementary])]
    at h
  obtain ⟨n, hn, hv⟩ := hs.cell
  have hexec : M.execute c (.read slot) = some (some (.scalar w), c.cells, c.calls) := by
    simp [execute, Machine.cell, hn, Datum.cell?, hv]
  obtain ⟨c', ty', hp, hcells, hcalls, htypes, -, hres⟩ := emit_passes h hF hc hexec
  cases htypes with
  | read hslot =>
    obtain ⟨hm, hty', hconst, hd⟩ := hres _ rfl
    rw [← Function.operandType_eq_ok_iff_valueType?, hty] at hslot
    cases hslot
    exact ⟨c', hp, hcells, hcalls, stands_result hm hty' hconst hd hs.discrete⟩

theorem store_grows {slot v : ValueId} {a : Unit} (h : Gives (Lowering.store slot v) s a s') :
    s.function.Grows s'.function := by
  simp only [Lowering.store, gives_bind (x := Lowering.typeOf _), Lowering.gives_typeOf] at h
  obtain ⟨sty, _, ⟨-, rfl⟩, vty, _, ⟨-, rfl⟩, h⟩ := h
  split at h
  · simp only [gives_bind, gives_pure] at h
    obtain ⟨_, _, h₁, _, _, h₂, -, rfl⟩ := h
    exact (emit_grows h₁).trans (emit_grows h₂)
  · simp only [gives_bind, gives_pure] at h
    obtain ⟨_, _, h₁, _, _, h₂, -, rfl⟩ := h
    exact (coerce_grows h₁).trans (emit_grows h₂)

theorem store_passes (hI : M.meaning.Lawful) {slot v : ValueId} {t : Elementary} {w : V} {o : Operand V} {a : Unit}
    (h : Gives (Lowering.store slot v) s a s') (hF : s'.function.Grows M.function) (hc : c.At s)
    (hs : M.Holds s.function c slot t w) (hv : M.Stands s.function c v o) :
    ∃ c' n, M.Passes s s' c c' ∧ M.datum c slot = some (.cell n) ∧ n < c.cells.length ∧
      c'.cells = c.cells.set n (o.coerce M.meaning t).value ∧ c'.calls = c.calls := by
  have hF₀ := (store_grows h).trans hF
  simp only [Lowering.store, gives_bind (x := Lowering.typeOf _), Lowering.gives_typeOf] at h
  obtain ⟨sty, _, ⟨hsty, rfl⟩, vty, _, ⟨hvty, rfl⟩, h⟩ := h
  obtain rfl := hs.eq_pointerTo hF₀ hsty
  obtain rfl := hv.eq_elementary hF₀ hvty
  simp only [LoweredType.isComposite, LoweredType.typedef?, LoweredType.elementary, Option.isSome_none,
    Bool.false_and, Bool.false_eq_true, if_false, gives_bind, gives_pure] at h
  obtain ⟨w', s₁, h₁, _, s₂, h₂, -, rfl⟩ := h
  have g₁ := coerce_grows h₁
  have hF₁ := (emit_grows h₂).trans hF
  obtain ⟨c₁, p₁, m₁, e₁, hw⟩ := coerce_passes hI h₁ hs.discrete hF₁ hc hv
  obtain ⟨n, hn, hcell⟩ := hs.cell
  have hlt : n < c.cells.length := (List.getElem?_eq_some_iff.1 hcell).1
  have hn₁ : M.datum c₁ slot = some (.cell n) := (datum_of_agree hs.made hF₀ p₁.agree).trans hn
  have hexec : M.execute c₁ (.write slot w') =
      some (none, c.cells.set n (o.coerce M.meaning t).value, c.calls) := by
    simp [execute, Machine.cell, hn₁, Datum.cell?, hw.scalar, m₁, e₁, hlt]
  obtain ⟨c₂, -, p₂, m₂, e₂, -⟩ := emit_passes h₂ hF p₁.arrived hexec
  exact ⟨c₂, n, p₁.trans p₂ g₁, hn, hlt, m₂, e₂⟩

theorem alloca_passes {t : Elementary} {slot : ValueId} (h : Gives (Lowering.alloca (.elementary t)) s slot s')
    (ht : t.isDiscrete = true) (hF : s'.function.Grows M.function) (hc : c.At s) :
    ∃ c', M.Passes s s' c c' ∧ c'.cells = c.cells ++ [M.meaning.blank t] ∧ c'.calls = c.calls ∧
      M.datum c' slot = some (.cell c.cells.length) ∧ M.Holds s'.function c' slot t (M.meaning.blank t) := by
  have hexec : M.execute c (.alloca (.elementary t) 1) =
      some (some (.cell c.cells.length), c.cells ++ [M.meaning.blank t], c.calls) := by
    simp [execute, LoweredType.elementary, LoweredType.elementary?]
  obtain ⟨c', ty, hp, hcells, hcalls, htypes, -, hres⟩ := emit_passes h hF hc hexec
  cases htypes with
  | alloca =>
    obtain ⟨hm, hty, -, hd⟩ := hres _ rfl
    exact ⟨c', hp, hcells, hcalls, hd, hm, hty, ⟨_, hd, by simp [hcells]⟩, ht⟩

end Machine

end BlockForm
