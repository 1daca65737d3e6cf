import Mathlib.Data.List.Forall2
import BlockForm.Proofs.Shapes

/-!
# BlockForm.Proofs.Erasure — comparing shapes is comparing types without their names

The shape of a type is what is left of it without member names, at whatever depth and however many in a row, and with
the name of each definition in place of its body (`Ty.erase`).  Two types are of one shape exactly if they erase to the
same.  So being of one shape is an equivalence, and types of one shape that are no definitions are made of members of
one shape; definitions are compared by name, and what they are made of may differ.
-/

namespace BlockForm

/-- A type without member names and without the bodies of definitions. -/
inductive ErasedTy where
  | elementary (e : Elementary)
  | operator (op : Connective) (operands : List ErasedTy)
  | defined (name : String)

namespace Ty

mutual

/-- The type without member names, definitions being known by their names. -/
def erase : Ty → ErasedTy
  | elementary e => .elementary e
  | leaf _ ty => ty.erase
  | operator op operands => .operator op (eraseAll operands)
  | defined name _ => .defined name

/-- The types of a list, each without its names. -/
def eraseAll : List Ty → List ErasedTy
  | [] => []
  | ty :: tys => ty.erase :: eraseAll tys

end

theorem erase_stripLeaf (ty : Ty) : ty.stripLeaf.erase = ty.erase := by
  induction ty using stripLeaf.induct with
  | case1 name ty ih => rw [stripLeaf, ih, erase]
  | case2 ty h =>
    cases ty with
    | leaf name ty => exact absurd rfl (h name ty)
    | elementary | operator | defined => rfl

mutual

/-- **Types are of one shape exactly if they erase to the same type.** -/
theorem sameShape_iff_erase : (a b : Ty) → (a.sameShape b = true ↔ a.erase = b.erase)
  | leaf name a, b => by rw [sameShape, erase, sameShape_iff_erase a b]
  | elementary e, b => by
    rw [← erase_stripLeaf b, sameShape, erase]
    cases hb : b.stripLeaf with
    | leaf name b => exact absurd hb (stripLeaf_ne_leaf _ name b)
    | elementary | operator | defined => simp [erase]
  | operator op as, b => by
    rw [← erase_stripLeaf b, sameShape, erase]
    cases hb : b.stripLeaf with
    | leaf name b => exact absurd hb (stripLeaf_ne_leaf _ name b)
    | operator op' bs => simp [erase, sameShapes_iff_eraseAll as bs]
    | elementary | defined => simp [erase]
  | defined name a, b => by
    rw [← erase_stripLeaf b, sameShape, erase]
    cases hb : b.stripLeaf with
    | leaf name b => exact absurd hb (stripLeaf_ne_leaf _ name b)
    | elementary | operator | defined => simp [erase]

theorem sameShapes_iff_eraseAll : (as bs : List Ty) → (sameShapes as bs = true ↔ eraseAll as = eraseAll bs)
  | [], [] => by simp [sameShapes]
  | [], _ :: _ => by simp [sameShapes, eraseAll]
  | _ :: _, [] => by simp [sameShapes, eraseAll]
  | a :: as, b :: bs => by
    simp [sameShapes, eraseAll, sameShape_iff_erase a b, sameShapes_iff_eraseAll as bs]

end

/-- Lists of one shape are as long as each other, and of one shape member by member. -/
theorem forall₂_of_sameShapes : {as bs : List Ty} → sameShapes as bs = true →
    List.Forall₂ (fun a b => a.sameShape b = true) as bs
  | [], [], _ => .nil
  | _ :: _, _ :: _, h => by
    rw [sameShapes, Bool.and_eq_true] at h
    exact .cons h.1 (forall₂_of_sameShapes h.2)

theorem operator?_stripLeaf (ty : Ty) : ty.stripLeaf.operator? = ty.operator? := by
  induction ty using stripLeaf.induct with
  | case1 name ty ih => rw [stripLeaf, ih, operator?]
  | case2 ty h => cases ty <;> simp_all [stripLeaf]

theorem isDefined_stripLeaf (ty : Ty) : ty.stripLeaf.isDefined = ty.isDefined := by
  induction ty using stripLeaf.induct with
  | case1 name ty ih => rw [stripLeaf, ih, isDefined]
  | case2 ty h => cases ty <;> simp_all [stripLeaf]

/-- Types of one shape that are no definitions are joined alike, from members of one shape. -/
theorem members_of_sameShape {a b : Ty} (h : a.sameShape b = true) (hd : a.isDefined = false) :
    a.operator? = b.operator? ∧ List.Forall₂ (fun m n => m.sameShape n = true) a.members b.members := by
  -- names at the top play no part
  rw [← sameShape_stripLeaf] at h
  rw [← isDefined_stripLeaf] at hd
  rw [← operator?_stripLeaf a, ← operator?_stripLeaf b, ← members_stripLeaf a, ← members_stripLeaf b]
  have hb := stripLeaf_stripLeaf b
  generalize b.stripLeaf = b' at h hb ⊢
  cases ha : a.stripLeaf with
  | leaf name ty => exact absurd ha (stripLeaf_ne_leaf a name ty)
  | defined name body =>
    rw [ha] at hd
    cases hd
  | elementary e =>
    rw [ha, sameShape, hb] at h
    cases b' with
    | elementary e' => exact ⟨rfl, .nil⟩
    | leaf | operator | defined => cases h
  | operator op as =>
    rw [ha, sameShape, hb] at h
    cases b' with
    | operator op' bs =>
      obtain ⟨hop, hs⟩ := Bool.and_eq_true_iff.1 h
      obtain rfl := eq_of_beq hop
      refine ⟨rfl, ?_⟩
      cases op with
      | implication => exact .nil
      | product | sum => exact forall₂_of_sameShapes hs
    | leaf | elementary | defined => cases h

/-- **Being of one shape is being the same type without names.**  It is an equivalence, and two types of one shape that
are no definitions have the same connective and equally many members, of one shape one by one. -/
theorem sameShape_laws :
    (∀ a b : Ty, a.sameShape b = true ↔ a.erase = b.erase) ∧
      Equivalence (fun a b : Ty => a.sameShape b = true) ∧
      ∀ a b : Ty, a.sameShape b = true → a.isDefined = false →
        a.operator? = b.operator? ∧ List.Forall₂ (fun m n => m.sameShape n = true) a.members b.members := by
  refine ⟨sameShape_iff_erase, ⟨fun a => ?_, fun {a b} h => ?_, fun {a b c} hab hbc => ?_⟩,
    fun a b => members_of_sameShape⟩
  · exact (sameShape_iff_erase a a).2 rfl
  · exact (sameShape_iff_erase b a).2 ((sameShape_iff_erase a b).1 h).symm
  · exact (sameShape_iff_erase a c).2 (((sameShape_iff_erase a b).1 hab).trans ((sameShape_iff_erase b c).1 hbc))

end Ty

end BlockForm
