import Mathlib.Data.List.Forall2
import BlockForm.Proofs.Coherence
import BlockForm.Proofs.Interning

/-!
# BlockForm.Proofs.Typing — the instruction table as rules

`Function.Types f u op t`: in a function `f` of the unit `u`, `op` takes its operands and gives a result of type
`t` (`none` for no result).  The rules are stated on the types of the values alone, one for each operation, and
`resultType_eq_ok_iff` says that the checker of `BlockForm.Code.Typing` accepts exactly what they allow.

Main statements besides: a typed operation has typed operands (`Types.operand`), and it stays typed when the
function grows and when the unit gets more typedefs and other functions of the same signatures (`Types.mono`).
-/

namespace BlockForm

/-- A check in two parts passes if both do. -/
theorem except_bind_eq_ok {ε α β : Type} {x : Except ε α} {k : α → Except ε β} {b : β} :
    (x >>= k) = .ok b ↔ ∃ a, x = .ok a ∧ k a = .ok b := by
  cases x <;> simp [bind, Except.bind]

namespace Function

variable {f g : Function} {u u' : CompilationUnit}

/-- The typedef at the address a value holds. -/
def PointsTo (f : Function) (u : CompilationUnit) (v : ValueId) (t : TypeDef) : Prop :=
  ∃ ty id, f.valueType? v = some ty ∧ ty.isPointer = true ∧ ty.typedef? = some id ∧ u.typedefAt? id = some t

/-- Which operands an operation takes, and the type of its result. -/
inductive Types (f : Function) (u : CompilationUnit) : Operation → Option LoweredType → Prop where
  | alloca {ty : LoweredType} {count : Nat} : ty.isPointer = false → count ≠ 0 →
      Types f u (.alloca ty count) (some ty.pointerTo)
  | read {memory : ValueId} {ty : LoweredType} : f.valueType? memory = some ty → ty.isPointer = true →
      Types f u (.read memory) (some ty.pointee)
  | write {memory value : ValueId} {ty : LoweredType} : f.valueType? memory = some ty → ty.isPointer = true →
      f.valueType? value = some ty.pointee → Types f u (.write memory value) none
  | objMemberAt {object : ValueId} {index : Nat} {t : TypeDef} {m : TypeMember} : f.PointsTo u object t →
      t.isUnion = false → t.members[index]? = some m → Types f u (.objMemberAt object index) (some m.ty.pointerTo)
  | unionMemberAt {target : ValueId} {index : Nat} {t : TypeDef} {m : TypeMember} : f.PointsTo u target t →
      t.isUnion = true → t.members[index]? = some m → Types f u (.unionMemberAt target index) (some m.ty.pointerTo)
  | setUnionIdx {target index : ValueId} {t : TypeDef} {ty : LoweredType} : f.PointsTo u target t →
      t.isUnion = true → f.valueType? index = some ty → ty.isInteger = true →
      f.discriminantInRange t index = true → Types f u (.setUnionIdx target index) none
  | getUnionIdx {target : ValueId} {t : TypeDef} : f.PointsTo u target t → t.isUnion = true →
      Types f u (.getUnionIdx target) (some (.elementary .i64))
  | convert {value : ValueId} {source target : LoweredType} : f.valueType? value = some source →
      source.isScalar = true → target.isScalar = true → Types f u (.convert value target) (some target)
  | call {name : String} {args : List ValueId} {callee : Function} : u.function? name = some callee →
      List.Forall₂ (fun arg ty => f.valueType? arg = some ty) args callee.arguments →
      Types f u (.call name args) (if callee.returnType.isNil then none else some callee.returnType)
  | arith {op : ArithOp} {left right : ValueId} {ty : LoweredType} : f.valueType? left = some ty →
      f.valueType? right = some ty → ty.isNumeric = true → Types f u (.arith op left right) (some ty)
  | cmp {op : CmpOp} {left right : ValueId} {ty : LoweredType} : f.valueType? left = some ty →
      f.valueType? right = some ty → ty.isScalar = true → Types f u (.cmp op left right) (some (.elementary .bool))
  | logic {op : LogicOp} {left right : ValueId} {ty ty' : LoweredType} : f.valueType? left = some ty →
      f.valueType? right = some ty' → ty.isBool = true → ty'.isBool = true →
      Types f u (.logic op left right) (some ty)
  | giveNothing : f.returnType.isNil = true → Types f u (.give none) none
  | give {value : ValueId} : f.valueType? value = some f.returnType → Types f u (.give (some value)) none

/-! ## The checker -/

theorem compositeOperand_eq_ok {mnemonic : String} {v : ValueId} {t : TypeDef} :
    f.compositeOperand u mnemonic v = .ok t ↔ f.PointsTo u v t := by
  simp only [compositeOperand, except_bind_eq_ok, operandType_eq_ok_iff_valueType?, PointsTo]
  constructor
  · rintro ⟨ty, hty, h⟩
    by_cases hp : ty.isPointer = true
    · rw [if_pos hp] at h
      cases hb : ty.typedef?.bind u.typedefAt? with
      | none => simp [hb] at h
      | some t' =>
        obtain ⟨id, hid, ht⟩ := Option.bind_eq_some_iff.1 hb
        simp only [hb, Except.ok.injEq] at h
        exact ⟨ty, id, hty, hp, hid, h ▸ ht⟩
    · simp [hp] at h
  · rintro ⟨ty, id, hty, hp, hid, ht⟩
    exact ⟨ty, hty, by simp [hp, hid, ht]⟩

theorem unionOperand_eq_ok {mnemonic : String} {v : ValueId} {t : TypeDef} :
    f.unionOperand u mnemonic v = .ok t ↔ f.PointsTo u v t ∧ t.isUnion = true := by
  simp only [unionOperand, except_bind_eq_ok, compositeOperand_eq_ok]
  constructor
  · rintro ⟨t', ht, h⟩
    by_cases hu : t'.isUnion = true
    · simp only [hu, if_true, Except.ok.injEq] at h
      subst h
      exact ⟨ht, hu⟩
    · simp [hu] at h
  · rintro ⟨ht, hu⟩
    exact ⟨t, ht, by simp [hu]⟩

theorem memberPointer_eq_ok {t : TypeDef} {index : Nat} {ty : LoweredType} :
    f.memberPointer t index = .ok ty ↔ ∃ m, t.members[index]? = some m ∧ m.ty.pointerTo = ty := by
  unfold memberPointer
  cases t.members[index]? <;> simp

theorem checkArguments_eq_ok {callee : String} {args : List ValueId} {tys : List LoweredType}
    (hlen : args.length = tys.length) :
    f.checkArguments u callee args tys = .ok () ↔
      List.Forall₂ (fun arg ty => f.valueType? arg = some ty) args tys := by
  induction args generalizing tys with
  | nil =>
    cases tys with
    | nil => simp [checkArguments]
    | cons ty tys => simp at hlen
  | cons arg args ih =>
    cases tys with
    | nil => simp at hlen
    | cons ty tys =>
      simp only [checkArguments, except_bind_eq_ok, operandType_eq_ok_iff_valueType?, List.forall₂_cons]
      constructor
      · rintro ⟨ty', hty, h⟩
        by_cases he : ty' = ty
        · subst he
          rw [if_pos rfl] at h
          exact ⟨hty, (ih (by simpa using hlen)).1 h⟩
        · simp [he] at h
      · rintro ⟨hty, h⟩
        exact ⟨ty, hty, by rw [if_pos rfl]; exact (ih (by simpa using hlen)).2 h⟩

/-- What the checker accepts, the rules allow. -/
theorem types_of_resultType {op : Operation} {t : Option LoweredType} (h : f.resultType u op = .ok t) :
    f.Types u op t := by
  cases op with
  | alloca ty count =>
    simp only [resultType] at h
    split at h
    · cases h
    · next hc =>
      rw [not_or] at hc
      cases h
      exact .alloca (by simpa using hc.1) hc.2
  | read memory =>
    simp only [resultType, except_bind_eq_ok, operandType_eq_ok_iff_valueType?] at h
    obtain ⟨ty, hty, h⟩ := h
    split at h
    · next hp => cases h; exact .read hty hp
    · cases h
  | write memory value =>
    simp only [resultType, except_bind_eq_ok, operandType_eq_ok_iff_valueType?] at h
    obtain ⟨ty, hty, source, hs, h⟩ := h
    split at h
    · next hp => cases h; exact .write hty hp.1 (hp.2 ▸ hs)
    · cases h
  | objMemberAt object index =>
    simp only [resultType, except_bind_eq_ok, compositeOperand_eq_ok] at h
    obtain ⟨t', ht, h⟩ := h
    split at h
    · cases h
    · next hu =>
      simp only [except_bind_eq_ok, memberPointer_eq_ok] at h
      obtain ⟨_, ⟨m, hm, rfl⟩, h⟩ := h
      cases h
      exact .objMemberAt ht (by simpa using hu) hm
  | setUnionIdx target index =>
    simp only [resultType, except_bind_eq_ok, unionOperand_eq_ok, operandType_eq_ok_iff_valueType?] at h
    obtain ⟨t', ⟨ht, hu⟩, ty, hty, h⟩ := h
    split at h
    · next hc => cases h; exact .setUnionIdx ht hu hty hc.1 hc.2
    · cases h
  | getUnionIdx target =>
    simp only [resultType, except_bind_eq_ok, unionOperand_eq_ok] at h
    obtain ⟨t', ⟨ht, hu⟩, h⟩ := h
    cases h
    exact .getUnionIdx ht hu
  | unionMemberAt target index =>
    simp only [resultType, except_bind_eq_ok, unionOperand_eq_ok, memberPointer_eq_ok] at h
    obtain ⟨t', ⟨ht, hu⟩, _, ⟨m, hm, rfl⟩, h⟩ := h
    cases h
    exact .unionMemberAt ht hu hm
  | convert value target =>
    simp only [resultType, except_bind_eq_ok, operandType_eq_ok_iff_valueType?] at h
    obtain ⟨source, hs, h⟩ := h
    split at h
    · next hc => cases h; exact .convert hs hc.1 hc.2
    · cases h
  | call name args =>
    simp only [resultType] at h
    cases hc : u.function? name with
    | none => simp [hc] at h
    | some callee =>
      rw [hc] at h
      simp only at h
      split at h
      · cases h
      · next hlen =>
        simp only [except_bind_eq_ok] at h
        obtain ⟨_, ha, h⟩ := h
        cases h
        exact .call hc ((checkArguments_eq_ok (by simpa using Eq.symm (not_not.1 hlen))).1 ha)
  | arith op left right =>
    simp only [resultType, except_bind_eq_ok, operandType_eq_ok_iff_valueType?] at h
    obtain ⟨l, hl, r, hr, h⟩ := h
    split at h
    · next hc => cases h; exact .arith hl (hc.2 ▸ hr) hc.1
    · cases h
  | cmp op left right =>
    simp only [resultType, except_bind_eq_ok, operandType_eq_ok_iff_valueType?] at h
    obtain ⟨l, hl, r, hr, h⟩ := h
    split at h
    · next hc => cases h; exact .cmp hl (hc.2 ▸ hr) hc.1
    · cases h
  | logic op left right =>
    simp only [resultType, except_bind_eq_ok, operandType_eq_ok_iff_valueType?] at h
    obtain ⟨l, hl, r, hr, h⟩ := h
    split at h
    · next hc => cases h; exact .logic hl hr hc.1 hc.2
    · cases h
  | give value =>
    cases value with
    | none =>
      simp only [resultType] at h
      split at h
      · next hn => cases h; exact .giveNothing hn
      · cases h
    | some value =>
      simp only [resultType, except_bind_eq_ok, operandType_eq_ok_iff_valueType?] at h
      obtain ⟨ty, hty, h⟩ := h
      split at h
      · next he => cases h; exact .give (he ▸ hty)
      · cases h

/-- What the rules allow, the checker accepts. -/
theorem resultType_of_types {op : Operation} {t : Option LoweredType} (h : f.Types u op t) :
    f.resultType u op = .ok t := by
  cases h with
  | alloca hp hc => simp [resultType, hp, hc]
  | read hty hp =>
    simp only [resultType, except_bind_eq_ok, operandType_eq_ok_iff_valueType?]
    exact ⟨_, hty, by simp [hp]⟩
  | write hty hp hv =>
    simp only [resultType, except_bind_eq_ok, operandType_eq_ok_iff_valueType?]
    exact ⟨_, hty, _, hv, by simp [hp]⟩
  | objMemberAt ht hu hm =>
    simp only [resultType, except_bind_eq_ok, compositeOperand_eq_ok]
    refine ⟨_, ht, ?_⟩
    simp only [hu, Bool.false_eq_true, if_false, except_bind_eq_ok, memberPointer_eq_ok]
    exact ⟨_, ⟨_, hm, rfl⟩, rfl⟩
  | unionMemberAt ht hu hm =>
    simp only [resultType, except_bind_eq_ok, unionOperand_eq_ok, memberPointer_eq_ok]
    exact ⟨_, ⟨ht, hu⟩, _, ⟨_, hm, rfl⟩, rfl⟩
  | setUnionIdx ht hu hty hi hr =>
    simp only [resultType, except_bind_eq_ok, unionOperand_eq_ok, operandType_eq_ok_iff_valueType?]
    exact ⟨_, ⟨ht, hu⟩, _, hty, by simp [hi, hr]⟩
  | getUnionIdx ht hu =>
    simp only [resultType, except_bind_eq_ok, unionOperand_eq_ok]
    exact ⟨_, ⟨ht, hu⟩, rfl⟩
  | convert hs hs' ht =>
    simp only [resultType, except_bind_eq_ok, operandType_eq_ok_iff_valueType?]
    exact ⟨_, hs, by simp [hs', ht]⟩
  | call hc ha =>
    simp only [resultType, hc, ha.length_eq, ne_eq, not_true_eq_false, if_false, except_bind_eq_ok]
    exact ⟨(), (checkArguments_eq_ok ha.length_eq).2 ha, rfl⟩
  | arith hl hr hn =>
    simp only [resultType, except_bind_eq_ok, operandType_eq_ok_iff_valueType?]
    exact ⟨_, hl, _, hr, by simp [hn]⟩
  | cmp hl hr hn =>
    simp only [resultType, except_bind_eq_ok, operandType_eq_ok_iff_valueType?]
    exact ⟨_, hl, _, hr, by simp [hn]⟩
  | logic hl hr hb hb' =>
    simp only [resultType, except_bind_eq_ok, operandType_eq_ok_iff_valueType?]
    exact ⟨_, hl, _, hr, by simp [hb, hb']⟩
  | giveNothing hn => simp [resultType, hn]
  | give hv =>
    simp only [resultType, except_bind_eq_ok, operandType_eq_ok_iff_valueType?]
    exact ⟨_, hv, by simp⟩

/-- **The checker accepts exactly what the rules allow.** -/
theorem resultType_eq_ok_iff {op : Operation} {t : Option LoweredType} :
    f.resultType u op = .ok t ↔ f.Types u op t :=
  ⟨types_of_resultType, resultType_of_types⟩

/-- **Every operand of a typed operation is a value with a type.** -/
theorem Types.operand {op : Operation} {t : Option LoweredType} (h : f.Types u op t) :
    ∀ v ∈ op.operands, ∃ ty, f.valueType? v = some ty := by
  have pointed : ∀ {v t}, f.PointsTo u v t → ∃ ty, f.valueType? v = some ty :=
    fun ⟨ty, _, hty, _⟩ => ⟨ty, hty⟩
  cases h with
  | alloca => simp [Operation.operands]
  | read hty => simpa [Operation.operands] using ⟨_, hty⟩
  | write hty hp hv => simpa [Operation.operands] using ⟨⟨_, hty⟩, _, hv⟩
  | objMemberAt ht => simpa [Operation.operands] using pointed ht
  | unionMemberAt ht => simpa [Operation.operands] using pointed ht
  | setUnionIdx ht hu hty => simpa [Operation.operands] using ⟨pointed ht, _, hty⟩
  | getUnionIdx ht => simpa [Operation.operands] using pointed ht
  | convert hs => simpa [Operation.operands] using ⟨_, hs⟩
  | call hc ha =>
    intro v hv
    obtain ⟨i, hi, rfl⟩ := List.getElem_of_mem hv
    exact ⟨_, ha.get hi (ha.length_eq ▸ hi)⟩
  | arith hl hr => simpa [Operation.operands] using ⟨⟨_, hl⟩, _, hr⟩
  | cmp hl hr => simpa [Operation.operands] using ⟨⟨_, hl⟩, _, hr⟩
  | logic hl hr => simpa [Operation.operands] using ⟨⟨_, hl⟩, _, hr⟩
  | giveNothing => simp [Operation.operands]
  | give hv => simpa [Operation.operands] using ⟨_, hv⟩

/-! ## Growth -/

theorem Grows.valueType? (hg : Grows f g) {v : ValueId} {ty : LoweredType} (h : f.valueType? v = some ty) :
    g.valueType? v = some ty :=
  operandType_eq_ok_iff_valueType?.1 (hg.operandType (operandType_eq_ok_iff_valueType?.2 h))

/-- Whether a constant discriminant is in range is settled once the value is there. -/
theorem Grows.discriminantInRange (hg : Grows f g) {t : TypeDef} {v : ValueId} {ty : LoweredType}
    (h : f.valueType? v = some ty) : g.discriminantInRange t v = f.discriminantInRange t v := by
  obtain ⟨x, hx, -⟩ := Option.bind_eq_some_iff.1 h
  simp only [Function.discriminantInRange, constant?, hg.value? hx, hx]

end Function

namespace CompilationUnit

/-- A unit in which typedefs keep their handles and functions their signatures. -/
structure Upholds (u u' : CompilationUnit) : Prop where
  typedefs : u.typedefs.entries <+: u'.typedefs.entries
  signature : ∀ {name callee}, u.function? name = some callee → ∃ callee', u'.function? name = some callee' ∧
    callee'.arguments = callee.arguments ∧ callee'.returnType = callee.returnType

theorem Upholds.refl (u : CompilationUnit) : Upholds u u := ⟨List.prefix_refl _, fun h => ⟨_, h, rfl, rfl⟩⟩

theorem Extends.upholds {u u' : CompilationUnit} (h : u.Extends u') : u.Upholds u' :=
  ⟨h.typedefs, fun hc => ⟨_, by rwa [function?, h.functions], rfl, rfl⟩⟩

theorem Upholds.typedefAt? {u u' : CompilationUnit} (h : u.Upholds u') {id : TypeDefId} {t : TypeDef}
    (ht : u.typedefAt? id = some t) : u'.typedefAt? id = some t :=
  Table.at?_of_prefix h.typedefs ht

end CompilationUnit

namespace Function

variable {f g : Function} {u u' : CompilationUnit}

theorem PointsTo.mono {v : ValueId} {t : TypeDef} (h : f.PointsTo u v t) (hg : f.Grows g) (hu : u.Upholds u') :
    g.PointsTo u' v t := by
  obtain ⟨ty, id, hty, hp, hid, ht⟩ := h
  exact ⟨ty, id, hg.valueType? hty, hp, hid, hu.typedefAt? ht⟩

/-- **A typed operation stays typed** when its function grows and its unit upholds typedefs and signatures. -/
theorem Types.mono {op : Operation} {t : Option LoweredType} (h : f.Types u op t) (hg : f.Grows g)
    (hu : u.Upholds u') : g.Types u' op t := by
  cases h with
  | alloca hp hc => exact .alloca hp hc
  | read hty hp => exact .read (hg.valueType? hty) hp
  | write hty hp hv => exact .write (hg.valueType? hty) hp (hg.valueType? hv)
  | objMemberAt ht hn hm => exact .objMemberAt (ht.mono hg hu) hn hm
  | unionMemberAt ht hn hm => exact .unionMemberAt (ht.mono hg hu) hn hm
  | setUnionIdx ht hn hty hi hr =>
    exact .setUnionIdx (ht.mono hg hu) hn (hg.valueType? hty) hi ((hg.discriminantInRange hty).trans hr)
  | getUnionIdx ht hn => exact .getUnionIdx (ht.mono hg hu) hn
  | convert hs hs' ht => exact .convert (hg.valueType? hs) hs' ht
  | call hc ha =>
    obtain ⟨callee', hc', harg, hret⟩ := hu.signature hc
    rw [← hret]
    refine .call hc' ?_
    rw [harg]
    exact ha.imp fun _ _ h => hg.valueType? h
  | arith hl hr hn => exact .arith (hg.valueType? hl) (hg.valueType? hr) hn
  | cmp hl hr hn => exact .cmp (hg.valueType? hl) (hg.valueType? hr) hn
  | logic hl hr hb hb' => exact .logic (hg.valueType? hl) (hg.valueType? hr) hb hb'
  | giveNothing hn => exact .giveNothing (hg.returnType ▸ hn)
  | give hv => exact .give (hg.returnType ▸ hg.valueType? hv)

end Function

end BlockForm
