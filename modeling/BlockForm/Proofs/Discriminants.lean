import BlockForm.Proofs.Construction
import BlockForm.Proofs.Shapes

/-!
# BlockForm.Proofs.Discriminants — the member that one argument builds

A sum is built from one argument by its first member that the argument builds.  That is a member of the shape of the
argument, or a product, seen through definitions, whose only member has that shape (`Ty.wraps`).  A match compares
members with patterns by their shape alone.  So a case for the type of the argument covers what has been built exactly
if no member that wraps the argument comes before all those of its shape (`FillPlan.ExactFirst`).
-/

namespace BlockForm

open Action

/-- The type is a product whose only member has the shape of `arg`. -/
def Ty.wraps (ty arg : Ty) : Bool := ty.isProduct && Ty.sameShapes [arg] ty.members

namespace FillPlan

variable {arg : Ty} {members : List Ty}

/-- A member of the shape of `arg` comes before every member that wraps it. -/
def ExactFirst (arg : Ty) (members : List Ty) : Prop :=
  ∃ j exact, members[j]? = some exact ∧ arg.sameShape exact = true ∧
    ∀ {i : Nat} {other : Ty}, i < j → members[i]? = some other → other.wraps arg = false

theorem builds_single (arg member : Ty) : builds [arg] member = (arg.sameShape member || member.wraps arg) := rfl

/-- The first member that an argument builds has its shape exactly if such a member comes first. -/
theorem FirstBuilt.sameShape_iff {k : Nat} {member : Ty} (h : FirstBuilt [arg] members k member) :
    arg.sameShape member = true ↔ ExactFirst arg members := by
  constructor
  · intro hshape
    refine ⟨k, member, h.found, hshape, fun {i other} hi hother => ?_⟩
    have hbuilds := h.least hi hother
    rw [builds_single, Bool.or_eq_false_iff] at hbuilds
    exact hbuilds.2
  · rintro ⟨j, exact, hj, hshape, hbefore⟩
    rcases Nat.lt_trichotomy k j with hlt | rfl | hlt
    · -- what is built before the exact member does not wrap the argument
      have hbuilt := h.built
      rw [builds_single, hbefore hlt h.found, Bool.or_false] at hbuilt
      exact hbuilt
    · rw [h.found] at hj
      cases hj
      exact hshape
    · have hbuilds := h.least hlt hj
      rw [builds_single, hshape, Bool.true_or] at hbuilds
      cases hbuilds

end FillPlan

/-- A case whose pattern is the shape of some member covers the members of its shape. -/
theorem MatchCase.covers_of_pattern {sum pattern exact : Ty} {c : MatchCase} (hc : c.pattern = some pattern)
    (hexact : exact ∈ sum.members) (hshape : pattern.sameShape exact = true) (covered : List Nat) :
    ∃ indices, c.covers sum covered = .ok indices ∧
      ∀ {k member}, sum.members[k]? = some member → (k ∈ indices ↔ pattern.sameShape member = true) := by
  have hmem : ∀ {k member}, sum.members[k]? = some member →
      (k ∈ positionsFrom (fun member => member.sameShape pattern) 0 sum.members ↔ pattern.sameShape member = true) := by
    intro k member hk
    simp [mem_positionsFrom, hk, Ty.sameShape_comm pattern]
  refine ⟨_, ?_, hmem⟩
  obtain ⟨j, hj⟩ := List.mem_iff_getElem?.1 hexact
  have hne := List.ne_nil_of_mem ((hmem hj).2 hshape)
  simp only [covers, hc]
  rw [if_neg (by simpa using hne)]

/-- Entering a member sets the discriminant, in the current block, to its position. -/
theorem Lowering.enterMember_sets {m payload : ValueId} {k : Nat} {s s' : LoweringState}
    (h : Gives (enterMember m k) s payload s') :
    ∃ discriminant, s'.function.Holds s.current ⟨.setUnionIdx m discriminant, Function.nilValue⟩ ∧
      s'.function.Counts discriminant k := by
  obtain ⟨d, s₁, s₂, hconst, hcounts, hset, hpayload⟩ := enterMember_gives h
  obtain ⟨_, -, rfl⟩ := gives_inFunction.1 hconst
  obtain ⟨hholds, hgrows₂, -⟩ := holds_of_emit hset
  obtain ⟨-, hgrows₃, -⟩ := holds_of_emit hpayload
  exact ⟨d, hholds.grow hgrows₃, hcounts.grow (hgrows₂.trans hgrows₃)⟩

/-- **A case for the type of an argument covers the sum built from it unless a wrapper comes first.**  Of a sum that has
a member of the shape of its single argument and is not of that shape itself, the discriminant is set to the position of
the first member that the argument builds, and never again if the address has just been obtained.  That member has the
shape of the argument, and every case whose pattern is the type of the argument covers it, exactly if a member of that
shape comes before every product whose only member has it. -/
theorem Lowering.fill_discriminant {m : ValueId} {s s' : LoweringState} {sum : Ty} {arg : Expr}
    (hsum : sum.isSum = true) (hother : arg.ty.sameShape sum = false)
    (hexact : ∃ exact ∈ sum.members, arg.ty.sameShape exact = true) (h : Gives (fill m sum [arg]) s () s') :
    ∃ k member discriminant, FillPlan.FirstBuilt [arg.ty] sum.members k member ∧
      s'.function.Holds s.current ⟨.setUnionIdx m discriminant, Function.nilValue⟩ ∧
      s'.function.Counts discriminant k ∧
      (∀ {g : Site} {op : Operation}, g.Ready → g.Obtains op → Gives (emit op) g.state m s →
        ∃ d payload s₁ rest, EntersMember s s₁ m k d payload ∧ rest.filter (·.mentions m) = [] ∧
          s.Adds s' (⟨.setUnionIdx m d, Function.nilValue⟩ :: ⟨.unionMemberAt m k, payload⟩ :: rest)) ∧
      (arg.ty.sameShape member = true ↔ FillPlan.ExactFirst arg.ty sum.members) ∧
      ∀ c : MatchCase, c.pattern = some arg.ty → ∀ covered, ∃ indices, c.covers sum covered = .ok indices ∧
        (k ∈ indices ↔ FillPlan.ExactFirst arg.ty sum.members) := by
  rcases fill_gives h with ⟨_, -, hty, -⟩ | ⟨-, -, k, member, payload, s₁, hfirst, henter, hpayload⟩ | ⟨-, hty, -⟩
  · simp [FillPlan.isCopy, hother, hsum] at hty
  · obtain ⟨d, hholds, hcounts⟩ := enterMember_sets henter
    have hmade : Made (fun _ => True) (fill payload member [arg]) fun _ => True := .fill trivial member [arg]
    have hgrows := hmade.grows hpayload
    refine ⟨k, member, d, hfirst, hholds.grow hgrows, hcounts.grow hgrows, ?_, hfirst.sameShape_iff, ?_⟩
    · intro g op hr hop hm
      obtain ⟨code, hfills⟩ := hop.fills hr hm h
      have hadds := hfills.adds
      obtain ⟨k', member', d, payload, s₁, rest, hfirst', henters, -, rfl, hmentions⟩ := hfills.of_isSum hother hsum
      obtain ⟨rfl, rfl⟩ := hfirst.unique hfirst'
      exact ⟨d, payload, s₁, rest, henters, hmentions, hadds⟩
    · intro c hc covered
      obtain ⟨exact, hmem, hshape⟩ := hexact
      obtain ⟨indices, hcovers, hindices⟩ := MatchCase.covers_of_pattern hc hmem hshape covered
      exact ⟨indices, hcovers, (hindices hfirst.found).trans hfirst.sameShape_iff⟩
  · simp [hsum] at hty

namespace Sample

/-- `boxed`, the definition of `point` -/
def boxed : Ty := .defined "boxed" point

/-- `bool | point | boxed` -/
def bare : Ty := .operator .sum [.elementary .bool, point, boxed]

/-- `boxed | point` -/
def shadowed : Ty := .operator .sum [boxed, point]

/-- `point(1, 2)` -/
def onePoint : Expr :=
  .ofConstruct point [.constant (.int 1) (.elementary .i32) default, .constant (.int 2) (.elementary .i32) default]
    default

/-- A case for points. -/
def pointCase : MatchCase := .unbound (some point) (.ofBool true default) default

/-- The point comes before the member that wraps it, so it is the member that is built, and a case for points covers
it. -/
theorem bare_discriminant :
    ∃ (m : ValueId) (s s' : LoweringState), bare.isSum = true ∧ onePoint.ty.sameShape bare = false ∧
      (∃ exact ∈ bare.members, onePoint.ty.sameShape exact = true) ∧ Gives (Lowering.fill m bare [onePoint]) s () s' ∧
      (∃ discriminant, s'.function.Holds s.current ⟨.setUnionIdx m discriminant, Function.nilValue⟩ ∧
        s'.function.Counts discriminant 1) ∧
      ∃ indices, pointCase.covers bare [] = .ok indices ∧ 1 ∈ indices := by
  have hrun : (construct bare [onePoint] beforeStatements).result.toOption = some () := by decide +kernel
  obtain ⟨g, op, m, s, s', -, -, -, hfill⟩ := construct_gives hrun
  have hexact : ∃ exact ∈ bare.members, onePoint.ty.sameShape exact = true :=
    ⟨point, by simp [bare, Ty.members], by decide⟩
  obtain ⟨k, member, d, hfirst, hholds, hcounts, -, hshape, hcases⟩ :=
    Lowering.fill_discriminant rfl rfl hexact hfill
  have hsecond : FillPlan.FirstBuilt [onePoint.ty] bare.members 1 point := .of_findIdx? (by decide) rfl
  obtain ⟨rfl, rfl⟩ := hfirst.unique hsecond
  obtain ⟨indices, hcovers, hindices⟩ := hcases pointCase rfl []
  exact ⟨m, s, s', rfl, rfl, hexact, hfill, ⟨d, hholds, hcounts⟩, indices, hcovers, hindices.2 (hshape.1 (by decide))⟩

/-- The member that wraps a point is built in the place of the point, and a case for points does not cover it. -/
theorem shadowed_discriminant :
    ∃ (g : Site) (op : Operation) (m : ValueId) (s s' : LoweringState), g.Ready ∧ g.Obtains op ∧
      Gives (Lowering.emit op) g.state m s ∧ shadowed.isSum = true ∧ onePoint.ty.sameShape shadowed = false ∧
      (∃ exact ∈ shadowed.members, onePoint.ty.sameShape exact = true) ∧
      Gives (Lowering.fill m shadowed [onePoint]) s () s' ∧
      (∃ discriminant payload s₁ rest, Lowering.EntersMember s s₁ m 0 discriminant payload ∧
        s.Adds s' (⟨.setUnionIdx m discriminant, Function.nilValue⟩ :: ⟨.unionMemberAt m 0, payload⟩ :: rest) ∧
        rest.filter (·.mentions m) = []) ∧
      shadowed.members[0]? = some boxed ∧ onePoint.ty.sameShape boxed = false ∧
      pointCase.covers shadowed [] = .ok [1] := by
  have hrun : (construct shadowed [onePoint] beforeStatements).result.toOption = some () := by decide +kernel
  obtain ⟨g, op, m, s, s', hr, hop, hm, hfill⟩ := construct_gives hrun
  obtain ⟨code, hfills⟩ := hop.fills hr hm hfill
  have hadds := hfills.adds
  obtain ⟨k, member, d, payload, s₁, rest, hfirst, henter, -, rfl, hmentions⟩ := hfills.of_isSum rfl rfl
  have hwrapper : FillPlan.FirstBuilt [onePoint.ty] shadowed.members 0 boxed := .of_findIdx? (by decide) rfl
  obtain ⟨rfl, rfl⟩ := hfirst.unique hwrapper
  exact ⟨g, op, m, s, s', hr, hop, hm, rfl, rfl, ⟨point, by simp [shadowed, Ty.members], by decide⟩, hfill,
    ⟨d, payload, s₁, rest, henter, hadds, hmentions⟩, rfl, by decide, eq_ok_of_toOption (by decide)⟩

end Sample

end BlockForm
