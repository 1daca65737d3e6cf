import BlockForm.Type.Shape
import BlockForm.Proofs.Keys
import BlockForm.Proofs.Sizes

/-!
# BlockForm.Proofs.Shapes — types of one shape and their lowered forms

There are two notions of identity on surface types: `Ty.sameShape`, which leaves member names out, and the key, which
has them.  Lowering goes by the key.  Types of one shape are both elementary or both composite, so they lower alike
exactly if their keys agree (`lowerType_eq_iff_key`), in particular if they are the same up to the bodies of
definitions.
-/

namespace BlockForm

open Action

namespace Ty

theorem sameShape_stripLeaf (a b : Ty) : a.stripLeaf.sameShape b.stripLeaf = a.sameShape b := by
  induction a using stripLeaf.induct with
  | case1 name a ih => rw [stripLeaf, ih, sameShape]
  | case2 a h =>
    cases a with
    | leaf name a => exact absurd rfl (h name a)
    | elementary e => simp only [stripLeaf, sameShape, stripLeaf_stripLeaf]
    | operator op operands => simp only [stripLeaf, sameShape, stripLeaf_stripLeaf]
    | defined name body => simp only [stripLeaf, sameShape, stripLeaf_stripLeaf]

theorem stripLeaf_ne_leaf (ty : Ty) (name : String) (body : Ty) : ty.stripLeaf ≠ leaf name body := by
  induction ty using stripLeaf.induct with
  | case1 _ _ ih => exact ih
  | case2 ty h =>
    intro heq
    cases ty with
    | leaf n b => exact h n b rfl
    | elementary e => cases heq
    | operator op operands => cases heq
    | defined n b => cases heq

theorem sameShape_leaf_right (a : Ty) (name : String) (b : Ty) : a.sameShape (leaf name b) = a.sameShape b := by
  rw [← sameShape_stripLeaf, stripLeaf, sameShape_stripLeaf]

mutual

/-- It does not matter which of two types is compared with the other. -/
theorem sameShape_comm : (a b : Ty) → a.sameShape b = b.sameShape a
  | leaf name a, b => by rw [sameShape, sameShape_leaf_right, sameShape_comm a b]
  | elementary e, b => by
    rw [← sameShape_stripLeaf b]
    cases hb : b.stripLeaf with
    | leaf name b => exact absurd hb (stripLeaf_ne_leaf _ name b)
    | elementary e' => simp [sameShape, hb, stripLeaf, Bool.beq_comm (a := e)]
    | operator _ _ | defined _ _ => simp [sameShape, hb, stripLeaf]
  | operator op as, b => by
    rw [← sameShape_stripLeaf b]
    cases hb : b.stripLeaf with
    | leaf name b => exact absurd hb (stripLeaf_ne_leaf _ name b)
    | operator op' bs => simp [sameShape, hb, stripLeaf, Bool.beq_comm (a := op), sameShapes_comm as bs]
    | elementary _ | defined _ _ => simp [sameShape, hb, stripLeaf]
  | defined name a, b => by
    rw [← sameShape_stripLeaf b]
    cases hb : b.stripLeaf with
    | leaf name b => exact absurd hb (stripLeaf_ne_leaf _ name b)
    | defined name' b => simp [sameShape, hb, stripLeaf, Bool.beq_comm (a := name)]
    | elementary _ | operator _ _ => simp [sameShape, hb, stripLeaf]

theorem sameShapes_comm : (as bs : List Ty) → sameShapes as bs = sameShapes bs as
  | [], [] => rfl
  | [], _ :: _ => rfl
  | _ :: _, [] => rfl
  | a :: as, b :: bs => by rw [sameShapes, sameShapes, sameShape_comm a b, sameShapes_comm as bs]

end

/-- Types of one shape are the same elementary type, or neither is elementary. -/
theorem elementary?_of_sameShape {a b : Ty} (h : a.sameShape b = true) : a.elementary? = b.elementary? := by
  rw [← sameShape_stripLeaf] at h
  rw [← elementary?_stripLeaf a, ← elementary?_stripLeaf b]
  generalize hb : b.stripLeaf = b' at h
  have hbb : b'.stripLeaf = b' := hb ▸ stripLeaf_stripLeaf b
  cases ha : a.stripLeaf with
  | leaf name ty => exact absurd ha (stripLeaf_ne_leaf a name ty)
  | elementary e => cases b' <;> simp_all [sameShape, elementary?]
  | operator op operands => cases b' <;> simp_all [sameShape, elementary?]
  | defined name body => cases b' <;> simp_all [sameShape, elementary?]

theorem stripLeaf_of_elementary? {ty : Ty} {e : Elementary} (h : ty.elementary? = some e) :
    ty.stripLeaf = elementary e := by
  rw [← elementary?_stripLeaf] at h
  cases hs : ty.stripLeaf with
  | leaf name body => exact absurd hs (stripLeaf_ne_leaf ty name body)
  | elementary e' =>
    rw [hs] at h
    exact congrArg elementary (Option.some.inj h)
  | operator op operands =>
    rw [hs] at h
    cases h
  | defined name body =>
    rw [hs] at h
    cases h

end Ty

namespace CompilationUnit

/-- **Types of one shape lower alike exactly if they have the same key**, in every unit; they do if they are the same
type up to the bodies of definitions. -/
theorem lowerType_eq_iff_key {u u₁ u₂ : CompilationUnit} {t₁ t₂ : Ty} {l₁ l₂ : LoweredType}
    (hshape : t₁.sameShape t₂ = true) (h₁ : Gives (lowerType t₁) u l₁ u₁) (h₂ : Gives (lowerType t₂) u₁ l₂ u₂) :
    (l₁ = l₂ ↔ t₁.stripLeaf.key = t₂.stripLeaf.key) ∧
      (t₁.stripLeaf.outline = t₂.stripLeaf.outline → l₁ = l₂) := by
  have hkey : l₁ = l₂ ↔ t₁.stripLeaf.key = t₂.stripLeaf.key := by
    have he := Ty.elementary?_of_sameShape hshape
    have h₁' : Gives (lowerType t₁) u₂ l₁ u₂ := lowerType_again h₁ (extends_of_lowerType h₂).typedefs
    rcases lowerType_key h₁' with ⟨e, he₁, rfl⟩ | ⟨he₁, -, i, hi, rfl⟩
    · rcases lowerType_key h₂ with ⟨e', he₂, rfl⟩ | ⟨he₂, -⟩
      · rw [he₁, he₂] at he
        cases he
        rw [Ty.stripLeaf_of_elementary? he₁, Ty.stripLeaf_of_elementary? he₂]
        exact iff_of_true rfl rfl
      · rw [he₁, he₂] at he
        cases he
    · rcases lowerType_key h₂ with ⟨e', he₂, rfl⟩ | ⟨-, -, j, hj, rfl⟩
      · rw [he₁, he₂] at he
        cases he
      · constructor
        · -- One typedef has one key.
          intro hij
          cases hij
          obtain ⟨_, hent, -⟩ := typedefAt?_of_key hi
          obtain ⟨_, hent', -⟩ := typedefAt?_of_key hj
          rw [hent] at hent'
          exact (Prod.mk.inj (Option.some.inj hent')).1
        · intro hk
          rw [hk, hj] at hi
          cases hi
          rfl
  exact ⟨hkey, fun ho => hkey.2 (Ty.key_eq_of_outline_eq ho)⟩

end CompilationUnit

namespace Sample

/-- `a:i32, b:string` -/
def named : Ty := .operator .product [.leaf "a" (.elementary .i32), .leaf "b" (.elementary .string)]

/-- `i32, string` -/
def unnamed : Ty := .operator .product [.elementary .i32, .elementary .string]

/-- The unit after the types have been lowered. -/
def after (tys : List Ty) : CompilationUnit := (CompilationUnit.empty "sample" {}).lowerAll tys

theorem lower_named : Gives (CompilationUnit.lowerType named) (after []) (.composite ⟨0⟩) (after [named]) :=
  ⟨eq_ok_of_toOption (by decide +kernel), rfl⟩

theorem lower_unnamed :
    Gives (CompilationUnit.lowerType unnamed) (after [named]) (.composite ⟨1⟩) (after [named, unnamed]) :=
  ⟨eq_ok_of_toOption (by decide +kernel), rfl⟩

theorem named_eq_iff_key :
    named.sameShape unnamed = true ∧
      (LoweredType.composite ⟨0⟩ = .composite ⟨1⟩ ↔ named.stripLeaf.key = unnamed.stripLeaf.key) ∧
        (named.stripLeaf.outline = unnamed.stripLeaf.outline → LoweredType.composite ⟨0⟩ = .composite ⟨1⟩) :=
  ⟨by decide, CompilationUnit.lowerType_eq_iff_key (by decide) lower_named lower_unnamed⟩

/-- Two types of one shape that do not lower alike. -/
theorem named_lowers_apart :
    ∃ u u₁ u₂ l₁ l₂, named.sameShape unnamed = true ∧ Gives (CompilationUnit.lowerType named) u l₁ u₁ ∧
      Gives (CompilationUnit.lowerType unnamed) u₁ l₂ u₂ ∧ l₁ ≠ l₂ :=
  ⟨_, _, _, _, _, by decide, lower_named, lower_unnamed, by decide⟩

end Sample

end BlockForm
