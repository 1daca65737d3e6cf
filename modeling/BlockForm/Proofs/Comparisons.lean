import BlockForm.Proofs.ConstantTypes
import BlockForm.Proofs.Dispatch
import BlockForm.Proofs.ProgramMeaning

/-!
# BlockForm.Proofs.Comparisons — comparing integers of different types

Two integers are compared as values of one type: a constant that fits takes the type of the other operand, and else the
wider type is taken, whatever the signs are.  The comparison is that of the integers themselves as long as both are
values of the common type.  Here is when they always are (`Operand.Reconciles`): if a constant fits, or if one of the
two types has all values of the other.  Where a signed type meets an unsigned one that is as wide or wider, some values
of one operand are no values of the common type.
-/

namespace BlockForm

open Action

/-! ## Ranges -/

namespace Elementary

variable {a b : Elementary}

/-- The integer is a value of the type. -/
def contains (e : Elementary) (n : Int) : Bool := e.range?.any fun r => decide (r.1 ≤ n ∧ n ≤ r.2)

theorem contains_eq_true_iff {e : Elementary} {n : Int} :
    e.contains n = true ↔ ∃ r, e.range? = some r ∧ r.1 ≤ n ∧ n ≤ r.2 := by
  simp [contains, Option.any_eq_true]

theorem exists_range? {e : Elementary} (h : e.isInteger = true) : ∃ r, e.range? = some r := by
  cases e <;> first | exact ⟨_, rfl⟩ | cases h

theorem range?_le {e : Elementary} {r : Int × Int} (h : e.range? = some r) : r.1 ≤ r.2 := by
  cases e <;> cases h <;> decide

/-- The width of an integer type in bits. -/
def width (e : Elementary) : Nat := e.width?.getD 0

/-- The values of one integer type are values of the other: the signs are alike and the other type is not narrower, or
it is signed and wider. -/
def IncludedIn (a b : Elementary) : Prop :=
  (a.isSigned = b.isSigned ∧ a.width ≤ b.width) ∨ (a.isSigned = false ∧ b.isSigned = true ∧ a.width < b.width)

instance (a b : Elementary) : Decidable (a.IncludedIn b) := inferInstanceAs (Decidable (_ ∨ _))

/-- The least and the greatest value of one type are values of the other. -/
def boundsIn (a b : Elementary) : Bool := a.range?.all fun r => b.contains r.1 && b.contains r.2

theorem boundsIn_iff (ha : a.isInteger = true) (hb : b.isInteger = true) : a.boundsIn b = true ↔ a.IncludedIn b := by
  revert ha hb
  cases a <;> cases b <;> decide

theorem includedIn_iff (ha : a.isInteger = true) (hb : b.isInteger = true) :
    a.IncludedIn b ↔ ∀ n, a.contains n = true → b.contains n = true := by
  rw [← boundsIn_iff ha hb]
  obtain ⟨⟨least, greatest⟩, hr⟩ := exists_range? ha
  have hle := range?_le hr
  simp only [boundsIn, hr, Option.all_some, Bool.and_eq_true, contains_eq_true_iff, Option.some.injEq]
  constructor
  · rintro ⟨⟨r, hr', h₁, -⟩, ⟨r', hr'', -, h₂⟩⟩ n ⟨_, rfl, hn⟩
    cases hr'.symm.trans hr''
    exact ⟨r, hr', h₁.trans hn.1, hn.2.trans h₂⟩
  · intro h
    exact ⟨h least ⟨_, rfl, Int.le_refl _, hle⟩, h greatest ⟨_, rfl, hle, Int.le_refl _⟩⟩

theorem IncludedIn.refl (e : Elementary) : e.IncludedIn e := Or.inl ⟨rfl, Nat.le_refl _⟩

theorem IncludedIn.width_le (h : a.IncludedIn b) : a.width ≤ b.width := by
  rcases h with ⟨-, h⟩ | ⟨-, -, h⟩
  · exact h
  · exact Nat.le_of_lt h

/-- Of two types with the same width, one has the values of the other only if they are alike. -/
theorem IncludedIn.symm_of_width_le (h : a.IncludedIn b) (hw : b.width ≤ a.width) : b.IncludedIn a := by
  rcases h with ⟨hs, -⟩ | ⟨-, -, hlt⟩
  · exact Or.inl ⟨hs.symm, hw⟩
  · omega

end Elementary

/-- An integer constant fits the types that it is a value of. -/
theorem Constant.fits_int_iff {v : Int64} {e : Elementary} :
    (Constant.int v).Fits e ↔ e.contains v.toInt = true := by
  rw [fits_iff, Elementary.contains_eq_true_iff]
  constructor
  · rintro ⟨-, least, greatest, hr, hle⟩
    exact ⟨_, hr, hle⟩
  · rintro ⟨⟨least, greatest⟩, hr, hle⟩
    exact ⟨isInteger_of_range? hr, least, greatest, hr, hle⟩

/-- The constants that fit an integer type are integers. -/
theorem Constant.Fits.eq_int {k : Constant} {e : Elementary} (h : k.Fits e) (he : e.isInteger = true) :
    ∃ v, k = .int v := by
  rw [fits_iff] at h
  cases k with
  | int v => exact ⟨v, rfl⟩
  | float x => rcases h with rfl | rfl <;> cases he
  | bool b =>
    cases h
    cases he

/-- An integer type takes the constants that fit it, as they are. -/
theorem Constant.isSome_retyped?_iff {k : Constant} {e : Elementary} (he : e.isInteger = true) :
    (k.retyped? e).isSome = true ↔ k.Fits e := by
  constructor
  · intro h
    obtain ⟨k', hk'⟩ := Option.isSome_iff_exists.1 h
    rcases eq_or_int_of_retyped? hk' with rfl | ⟨v, -, hf⟩
    · exact hk'
    · cases e <;> simp [Elementary.isInteger, Elementary.isFloat] at he hf
  · intro h
    rw [Constant.Fits] at h
    rw [h]
    rfl

/-! ## Operands -/

namespace Operand

variable {V : Type} {o l r : Operand V} {e : Elementary}

/-- The operand may be the integer when the program runs: any value of its type, or the constant that it is. -/
def MayBe (o : Operand V) (n : Int) : Prop :=
  o.ty.contains n = true ∧ ∀ v, o.constant = some (.int v) → n = v.toInt

/-- The operand is a constant that fits the type. -/
def FitsIn (o : Operand V) (e : Elementary) : Prop := ∃ k, o.constant = some k ∧ k.Fits e

/-- The common type of the operands is one for all their values: a constant fits, or one type has all values of the
other. -/
def Reconciles (l r : Operand V) : Prop :=
  r.FitsIn l.ty ∨ l.FitsIn r.ty ∨ l.ty.IncludedIn r.ty ∨ r.ty.IncludedIn l.ty

/-- An operand of an integer type, which is in the type if it is a constant. -/
structure IsInteger (o : Operand V) : Prop where
  ty : o.ty.isInteger = true
  fits : ∀ {k}, o.constant = some k → k.Fits o.ty

theorem fitsIn_iff (he : e.isInteger = true) :
    (o.constant.bind fun k => k.retyped? e).isSome = true ↔ o.FitsIn e := by
  unfold FitsIn
  cases o.constant with
  | none => simp
  | some k => simp [Constant.isSome_retyped?_iff he]

theorem IsInteger.exists_mayBe (h : o.IsInteger) : ∃ n, o.MayBe n := by
  cases hk : o.constant with
  | none =>
    obtain ⟨r, hr⟩ := Elementary.exists_range? h.ty
    exact ⟨r.1, Elementary.contains_eq_true_iff.2 ⟨r, hr, Int.le_refl _, Elementary.range?_le hr⟩, by simp [hk]⟩
  | some k =>
    obtain ⟨v, rfl⟩ := (h.fits hk).eq_int h.ty
    refine ⟨v.toInt, Constant.fits_int_iff.1 (h.fits hk), fun w hw => ?_⟩
    cases hk.symm.trans hw
    rfl

/-- The values that an operand may have are all of a type if the operand is a constant of the type, or else if its own
type is included. -/
theorem IsInteger.within_iff (h : o.IsInteger) (he : e.isInteger = true) :
    (∀ n, o.MayBe n → e.contains n = true) ↔ o.FitsIn e ∨ o.ty.IncludedIn e := by
  constructor
  · intro hall
    cases hk : o.constant with
    | none =>
      right
      rw [Elementary.includedIn_iff h.ty he]
      exact fun n hn => hall n ⟨hn, by simp [hk]⟩
    | some k =>
      left
      obtain ⟨v, rfl⟩ := (h.fits hk).eq_int h.ty
      obtain ⟨n, hn⟩ := h.exists_mayBe
      obtain rfl := hn.2 v hk
      exact ⟨_, hk, Constant.fits_int_iff.2 (hall _ hn)⟩
  · rintro (⟨k, hk, hfits⟩ | hin) n hn
    · obtain ⟨v, rfl⟩ := hfits.eq_int he
      rw [hn.2 v hk]
      exact Constant.fits_int_iff.1 hfits
    · exact (Elementary.includedIn_iff h.ty he).1 hin n hn.1

/-- How the common type is chosen. -/
theorem comparisonType_cases (hl : l.ty.isInteger = true) (hr : r.ty.isInteger = true) :
    (l.comparisonType r = l.ty ∧ (r.FitsIn l.ty ∨ (¬ l.FitsIn r.ty ∧ r.ty.width ≤ l.ty.width))) ∨
      (l.comparisonType r = r.ty ∧ (l.FitsIn r.ty ∨ (¬ r.FitsIn l.ty ∧ l.ty.width < r.ty.width))) := by
  unfold comparisonType
  split
  · next h => exact Or.inl ⟨rfl, Or.inl ((fitsIn_iff hl).1 h)⟩
  next h₁ =>
  split
  · next h => exact Or.inr ⟨rfl, Or.inl ((fitsIn_iff hr).1 h)⟩
  next h₂ =>
  rw [fitsIn_iff hl] at h₁
  rw [fitsIn_iff hr] at h₂
  split
  · next hw => exact Or.inr ⟨rfl, Or.inr ⟨h₁, hw⟩⟩
  · next hw => exact Or.inl ⟨rfl, Or.inr ⟨h₂, Nat.le_of_not_lt hw⟩⟩

/-- Operands that do not reconcile are compared as values of the wider type, or of the left one if both are as wide. -/
theorem comparisonType_of_not_reconciles (hl : l.ty.isInteger = true) (hr : r.ty.isInteger = true)
    (h : ¬ l.Reconciles r) : l.comparisonType r = if l.ty.width < r.ty.width then r.ty else l.ty := by
  have hleft : ¬ r.FitsIn l.ty := fun hfits => h (Or.inl hfits)
  have hright : ¬ l.FitsIn r.ty := fun hfits => h (Or.inr (Or.inl hfits))
  rcases comparisonType_cases hl hr with ⟨heq, hchoice⟩ | ⟨heq, hchoice⟩
  · rw [heq, if_neg (Nat.not_lt.2 (hchoice.resolve_left hleft).2)]
  · rw [heq, if_pos (hchoice.resolve_left hright).2]

/-- **When the common type is one for all values of both operands.** -/
theorem common_iff (hl : l.IsInteger) (hr : r.IsInteger) :
    (∀ a b, l.MayBe a → r.MayBe b →
        (l.comparisonType r).contains a = true ∧ (l.comparisonType r).contains b = true) ↔ l.Reconciles r := by
  have split : ∀ e : Elementary, (∀ a b, l.MayBe a → r.MayBe b → e.contains a = true ∧ e.contains b = true) ↔
      (∀ a, l.MayBe a → e.contains a = true) ∧ ∀ b, r.MayBe b → e.contains b = true := by
    intro e
    obtain ⟨a₀, ha₀⟩ := hl.exists_mayBe
    obtain ⟨b₀, hb₀⟩ := hr.exists_mayBe
    exact ⟨fun h => ⟨fun a ha => (h a b₀ ha hb₀).1, fun b hb => (h a₀ b ha₀ hb).2⟩,
      fun h a b ha hb => ⟨h.1 a ha, h.2 b hb⟩⟩
  rw [split]
  -- the operand whose type is taken is no question; the wider type is included in the other only if they are alike
  rcases comparisonType_cases hl.ty hr.ty with ⟨heq, hchoice⟩ | ⟨heq, hchoice⟩
  · rw [heq, hl.within_iff hl.ty, hr.within_iff hl.ty]
    constructor
    · rintro ⟨-, hfits | hin⟩
      · exact Or.inl hfits
      · exact Or.inr (Or.inr (Or.inr hin))
    · intro h
      refine ⟨Or.inr (.refl _), ?_⟩
      rcases h with h | h | h | h
      · exact Or.inl h
      · exact hchoice.imp_right fun hnot => absurd h hnot.1
      · exact hchoice.imp_right fun hnot => h.symm_of_width_le hnot.2
      · exact Or.inr h
  · rw [heq, hl.within_iff hr.ty, hr.within_iff hr.ty]
    constructor
    · rintro ⟨hfits | hin, -⟩
      · exact Or.inr (Or.inl hfits)
      · exact Or.inr (Or.inr (Or.inl hin))
    · intro h
      refine ⟨?_, Or.inr (.refl _)⟩
      rcases h with h | h | h | h
      · exact hchoice.imp_right fun hnot => absurd h hnot.1
      · exact Or.inl h
      · exact Or.inr h
      · exact hchoice.imp_right fun hnot => absurd h.width_le (Nat.not_le_of_lt hnot.2)

end Operand

/-! ## What the code decides -/

/-- The relation between two integers that a comparison asks for. -/
def CmpOp.decides : CmpOp → Int → Int → Bool
  | eq, a, b => a == b
  | ne, a, b => a != b
  | lt, a, b => decide (a < b)
  | le, a, b => decide (a ≤ b)
  | gt, a, b => decide (a > b)
  | ge, a, b => decide (a ≥ b)

/-- Integers stand for themselves in every type they are values of, and are compared there as what they are.  What
becomes of an integer that is no value of the type it is converted to is left open. -/
structure Interpretation.Exact (I : Interpretation Int) : Prop where
  lawful : I.Lawful
  constant : ∀ {v e}, (Constant.int v).Fits e → I.constant (.int v) e = v.toInt
  convert : ∀ {source target n}, source.contains n = true → target.contains n = true → I.convert source target n = n
  cmp : ∀ {op e a b}, e.contains a = true → e.contains b = true → I.cmp op e a b = (op.decides a b).toInt

namespace Machine

variable {M : Machine Int} {f : Function} {c : Config Int}

theorem Stands.isInteger {v : ValueId} {o : Operand Int} (h : M.Stands f c v o) (hty : o.ty.isInteger = true) :
    o.IsInteger := ⟨hty, h.fits⟩

/-- A value within its type is one that the operand may have. -/
theorem Stands.mayBe (hI : M.meaning.Exact) {v : ValueId} {o : Operand Int} (h : M.Stands f c v o)
    (hin : o.ty.contains o.value = true) : o.MayBe o.value := by
  refine ⟨hin, fun k hk => ?_⟩
  rw [h.value_of_constant hk]
  exact hI.constant (h.fits hk)

theorem coerce_value {I : Interpretation Int} (hI : I.Exact) {o : Operand Int} {e : Elementary}
    (hin : o.ty.contains o.value = true) (he : e.contains o.value = true) : (o.coerce I e).value = o.value := by
  unfold Operand.coerce
  split
  · rfl
  · exact hI.convert hin he

end Machine

/-- **Comparisons compare the integers, as far as the common type goes.**  The operands are lowered one after the other
and made values of the common type.  All values that integer operands may have are values of that type exactly if the
operands reconcile; if they do not, the common type is the wider one, or the left one if both are as wide.  Where they
reconcile and the code is run on values of the types of the operands, the conversions keep them and the comparison
decides the relation between them. -/
theorem Lowering.lowerExpr_compares {op : BinaryOperator} {rel : CmpOp} {left right : Expr} {ty : Ty} {span : Span}
    {s s' : LoweringState} {v : ValueId} (hop : op.class = .cmp rel)
    (h : Gives (lowerExpr (.binary op left right ty span)) s v s') :
    ∃ lhs s₁ rhs s₂, Gives (lowerExpr left) s lhs s₁ ∧ Gives (lowerExpr right) s₁ rhs s₂ ∧
      ∀ {M : Machine Int} {c : Config Int} {l r : Operand Int}, M.meaning.Exact → s'.function.Grows M.function →
        c.At s₂ → M.Stands s₂.function c lhs l → M.Stands s₂.function c rhs r → l.ty.isInteger = true →
        r.ty.isInteger = true →
        ∃ common, s₂.function.comparisonType lhs rhs (.elementary l.ty) (.elementary r.ty) = .elementary common ∧
          ((∀ a b, l.MayBe a → r.MayBe b → common.contains a = true ∧ common.contains b = true) ↔ l.Reconciles r) ∧
          (¬ l.Reconciles r → common = if l.ty.width < r.ty.width then r.ty else l.ty) ∧
          (l.Reconciles r → l.ty.contains l.value = true → r.ty.contains r.value = true →
            (l.coerce M.meaning common).value = l.value ∧ (r.coerce M.meaning common).value = r.value ∧
            ∃ c', M.Passes s₂ s' c c' ∧
              M.Stands s'.function c' v ⟨.bool, (rel.decides l.value r.value).toInt, none⟩) := by
  rw [lowerExpr] at h
  simp only [gives_bind] at h
  obtain ⟨lhs, s₁, h₁, rhs, s₂, h₂, h₃⟩ := h
  refine ⟨lhs, s₁, rhs, s₂, h₁, h₂, ?_⟩
  intro M c l r hI hF hc hl hr hlt hrt
  have hgrows : s₂.function.Grows s'.function := (Made.lowerOperator trivial trivial op ty).grows h₃
  have hF₂ := hgrows.trans hF
  have hcommon := Operand.common_iff (hl.isInteger hlt) (hr.isInteger hrt)
  refine ⟨l.comparisonType r, Machine.comparisonType_eq hl hr hF₂, hcommon,
    Operand.comparisonType_of_not_reconciles hlt hrt, ?_⟩
  intro hrec hlin hrin
  obtain ⟨hlc, hrc⟩ := hcommon.2 hrec _ _ (hl.mayBe hI hlin) (hr.mayBe hI hrin)
  have hlv := Machine.coerce_value hI hlin hlc
  have hrv := Machine.coerce_value hI hrin hrc
  obtain ⟨c', o, hcomb, hp, -, -, hst⟩ :=
    Machine.lowerOperator_passes hI.lawful h₃ (by rw [hop]) hF₂ hF hc hl hr
  rw [Operand.combine, hop] at hcomb
  obtain rfl := Option.some.inj hcomb
  rw [hlv, hrv, hI.cmp hlc hrc] at hst
  exact ⟨hlv, hrv, c', hp, hst⟩

namespace Sample

/-- Whole numbers that wrap around when they are converted to a type they are no values of. -/
def modular : Interpretation Int :=
  { integers with
    convert := fun _ target n => target.range?.elim n fun r => (n - r.1) % (r.2 - r.1 + 1) + r.1 }

theorem modular_convert {source target : Elementary} {n : Int} (h : target.contains n = true) :
    modular.convert source target n = n := by
  obtain ⟨r, hr, hle⟩ := Elementary.contains_eq_true_iff.1 h
  simp only [modular, hr, Option.elim_some]
  rw [Int.emod_eq_of_lt (by omega) (by omega)]
  omega

theorem modular_exact : modular.Exact where
  lawful := by
    intro c c' source target hs ht hc hc'
    have hfloat : target.isFloat = false := by
      cases target <;> first | rfl | cases ht
    obtain rfl : c' = c := by
      rcases Constant.eq_or_int_of_retyped? hc' with h | ⟨_, -, hf⟩
      · exact h
      · rw [hfloat] at hf
        cases hf
    cases c' with
    | int v => exact modular_convert (Constant.fits_int_iff.1 hc')
    | bool b =>
      obtain rfl := Constant.fits_iff.1 hc'
      rfl
    | float x =>
      rcases Constant.fits_iff.1 hc' with rfl | rfl <;> cases hfloat
  constant := fun _ => rfl
  convert := fun _ ht => modular_convert ht
  cmp := by
    intro op e a b _ _
    cases op <;> rfl

/-- The variable on the left of a comparison. -/
def leftOf (e : Elementary) : Expr := .ident "a" (.elementary e) default

/-- The variable on the right. -/
def rightOf (e : Elementary) : Expr := .ident "b" (.elementary e) default

/-- `a < b` for variables of the given types. -/
def less (left right : Elementary) : Expr :=
  .binary .less (leftOf left) (rightOf right) (.elementary .bool) default

/-- A function where the variables have their slots. -/
def declared (left right : Elementary) : LoweringState :=
  ((do
    Lowering.define "a" (← Lowering.alloca (.elementary left))
    Lowering.define "b" (← Lowering.alloca (.elementary right)) : Lowering Unit) beforeStatements).state

/-- After the variables have been read. -/
def operandsRead (left right : Elementary) : LoweringState :=
  (Lowering.lowerExpr (rightOf right) (Lowering.lowerExpr (leftOf left) (declared left right)).state).state

/-- After the comparison. -/
def compared (left right : Elementary) : LoweringState :=
  (Lowering.lowerExpr (less left right) (declared left right)).state

/-- The moment when the variables have been read, with these values. -/
def readAs (a b : Int) : Config Int :=
  ⟨⟨0⟩, 4, fun i => if i = ⟨2⟩ then some (.scalar a) else if i = ⟨3⟩ then some (.scalar b) else none, [], []⟩

/-- A result that a register holds. -/
theorem stands_of_register {M : Machine Int} {f : Function} {c : Config Int} {v : ValueId} {i : InstructionId}
    {e : Elementary} {name : String} {w : Int} (hv : f.value? v = some ⟨.result i, some (.elementary e), name⟩)
    (hi : i.index < f.instructions.size) (hF : f.Grows M.function) (hc : c.registers i = some (.scalar w))
    (he : e.isDiscrete = true) : M.Stands f c v ⟨e, w, none⟩ := by
  have hv' := hF.value? hv
  refine Machine.stands_result ⟨_, hv, ?_⟩ ?_ ?_ ?_ he
  · rintro _ ⟨⟩
    exact hi
  · rw [Function.valueType?, hv']
    rfl
  · rw [Function.constant?, hv']
    rfl
  · rw [Machine.datum, hv']
    exact hc

/-- Up to the moment when the variables have been read, with a signed type that is wider than the other and with types
of one width. -/
theorem less_operands {left right : Elementary}
    (hpair : (left = .i16 ∧ right = .u8) ∨ (left = .i32 ∧ right = .u32)) (a b : Int) :
    ∃ t, Gives (Lowering.lowerExpr (leftOf left)) (declared left right) ⟨5⟩ t ∧
      Gives (Lowering.lowerExpr (rightOf right)) t ⟨6⟩ (operandsRead left right) ∧
      Gives (Lowering.lowerOperator .less (.elementary .bool) ⟨5⟩ ⟨6⟩) (operandsRead left right) ⟨8⟩
        (compared left right) ∧
      Gives (Lowering.lowerExpr (less left right)) (declared left right) ⟨8⟩ (compared left right) ∧
      (readAs a b).At (operandsRead left right) ∧
      Machine.Stands ⟨modular, (compared left right).function, []⟩ (operandsRead left right).function (readAs a b) ⟨5⟩
        ⟨left, a, none⟩ ∧
      Machine.Stands ⟨modular, (compared left right).function, []⟩ (operandsRead left right).function (readAs a b) ⟨6⟩
        ⟨right, b, none⟩ := by
  let s := operandsRead left right
  have hrun : (Lowering.lowerExpr (less left right) (declared left right)).result.toOption = some ⟨8⟩ ∧
      (Lowering.lowerExpr (leftOf left) (declared left right)).result.toOption = some ⟨5⟩ ∧
      (Lowering.lowerExpr (rightOf right)
        (Lowering.lowerExpr (leftOf left) (declared left right)).state).result.toOption = some ⟨6⟩ := by
    rcases hpair with ⟨rfl, rfl⟩ | ⟨rfl, rfl⟩ <;> decide +kernel
  have hstate : (s.current = ⟨0⟩ ∧ (s.function.block? s.current).map (·.instructions.size) = some 4) ∧
      s.function.instructions.size = 4 ∧
      s.function.value? ⟨5⟩ = some ⟨.result ⟨2⟩, some (.elementary left), "$2"⟩ ∧
      s.function.value? ⟨6⟩ = some ⟨.result ⟨3⟩, some (.elementary right), "$3"⟩ := by
    rcases hpair with ⟨rfl, rfl⟩ | ⟨rfl, rfl⟩ <;> decide +kernel
  have hdiscrete : left.isDiscrete = true ∧ right.isDiscrete = true := by
    rcases hpair with ⟨rfl, rfl⟩ | ⟨rfl, rfl⟩ <;> decide
  have hless : Gives (Lowering.lowerExpr (less left right)) (declared left right) ⟨8⟩ (compared left right) :=
    ⟨eq_ok_of_toOption hrun.1, rfl⟩
  have hleft : Gives (Lowering.lowerExpr (leftOf left)) (declared left right) ⟨5⟩ _ := ⟨eq_ok_of_toOption hrun.2.1, rfl⟩
  have hright : Gives (Lowering.lowerExpr (rightOf right)) _ ⟨6⟩ s := ⟨eq_ok_of_toOption hrun.2.2, rfl⟩
  have hparts := hless
  rw [less, Lowering.lowerExpr] at hparts
  simp only [gives_bind] at hparts
  obtain ⟨lhs, t, hlhs, rhs, t', hrhs, hop⟩ := hparts
  obtain ⟨rfl, rfl⟩ := hleft.unique hlhs
  obtain ⟨rfl, rfl⟩ := hright.unique hrhs
  have hgrows : s.function.Grows (compared left right).function :=
    (Lowering.Made.lowerOperator trivial trivial .less (.elementary .bool)).grows hop
  obtain ⟨x, hx, hsize⟩ := Option.map_eq_some_iff.1 hstate.1.2
  refine ⟨_, hleft, hright, hop, hless, ⟨hstate.1.1.symm, x, hx, hsize.symm⟩, ?_, ?_⟩
  · exact stands_of_register hstate.2.2.1 (by rw [hstate.2.1]; decide) hgrows rfl hdiscrete.1
  · exact stands_of_register hstate.2.2.2 (by rw [hstate.2.1]; decide) hgrows rfl hdiscrete.2

/-- -5 is less than 200: the values of `u8` are values of `i16`. -/
theorem less_compares :
    Gives (Lowering.lowerExpr (less .i16 .u8)) (declared .i16 .u8) ⟨8⟩ (compared .i16 .u8) ∧
      (Operand.mk (V := Int) .i16 (-5) none).Reconciles ⟨.u8, 200, none⟩ ∧
      ∃ c', Machine.Passes ⟨modular, (compared .i16 .u8).function, []⟩ (operandsRead .i16 .u8) (compared .i16 .u8)
          (readAs (-5) 200) c' ∧
        Machine.Stands ⟨modular, (compared .i16 .u8).function, []⟩ (compared .i16 .u8).function c' ⟨8⟩
          ⟨.bool, 1, none⟩ := by
  obtain ⟨t, hleft, hright, -, hless, hat, hl, hr⟩ := less_operands (Or.inl ⟨rfl, rfl⟩) (-5) 200
  have hrec : (Operand.mk (V := Int) .i16 (-5) none).Reconciles ⟨.u8, 200, none⟩ := by
    refine Or.inr (Or.inr (Or.inr ?_))
    decide
  obtain ⟨lhs, s₁, rhs, s₂, h₁, h₂, hcompares⟩ := Lowering.lowerExpr_compares rfl hless
  obtain ⟨rfl, rfl⟩ := hleft.unique h₁
  obtain ⟨rfl, rfl⟩ := hright.unique h₂
  obtain ⟨common, -, -, -, hdecides⟩ := hcompares modular_exact (.refl _) hat hl hr rfl rfl
  obtain ⟨-, -, c', hpasses, hstands⟩ := hdecides hrec (by decide) (by decide)
  exact ⟨hless, hrec, c', hpasses, hstands⟩

/-- -1 is not less than 3000000000 by the code: the common type is `i32`, where the greater number has no place. -/
theorem less_misjudges :
    (Elementary.i32.contains (-1) = true ∧ Elementary.u32.contains 3000000000 = true ∧
      CmpOp.lt.decides (-1) 3000000000 = true) ∧ modular.Exact ∧
    ∃ t, Gives (Lowering.lowerExpr (leftOf .i32)) (declared .i32 .u32) ⟨5⟩ t ∧
      Gives (Lowering.lowerExpr (rightOf .u32)) t ⟨6⟩ (operandsRead .i32 .u32) ∧
      Gives (Lowering.lowerExpr (less .i32 .u32)) (declared .i32 .u32) ⟨8⟩ (compared .i32 .u32) ∧
      (operandsRead .i32 .u32).function.comparisonType ⟨5⟩ ⟨6⟩ (.elementary .i32) (.elementary .u32) =
        .elementary .i32 ∧
      Elementary.i32.contains 3000000000 = false ∧
      ∃ c', Machine.Passes ⟨modular, (compared .i32 .u32).function, []⟩ (operandsRead .i32 .u32) (compared .i32 .u32)
          (readAs (-1) 3000000000) c' ∧
        Machine.Stands ⟨modular, (compared .i32 .u32).function, []⟩ (compared .i32 .u32).function c' ⟨8⟩
          ⟨.bool, 0, none⟩ := by
  obtain ⟨t, hleft, hright, hop, hless, hat, hl, hr⟩ := less_operands (Or.inr ⟨rfl, rfl⟩) (-1) 3000000000
  have hgrows := (Lowering.Made.lowerOperator trivial trivial .less (.elementary .bool)).grows hop
  obtain ⟨c', o, hcomb, hpasses, -, -, hstands⟩ :=
    Machine.lowerOperator_passes modular_exact.lawful hop rfl hgrows (.refl _) hat hl hr
  obtain rfl := Option.some.inj hcomb
  exact ⟨by decide, modular_exact, t, hleft, hright, hless, Machine.comparisonType_eq hl hr hgrows, by decide, c',
    hpasses, hstands⟩

end Sample

end BlockForm
