import BlockForm.Proofs.Catalogue
import BlockForm.Proofs.Keys

/-!
# BlockForm.Proofs.Deduplication — one typedef for a type, for good

A composite type is found by its key, and the position of its typedef is its handle.  No addition to a unit moves or
replaces a typedef: whatever is added, and whatever is refused, the table of typedefs only grows at its end
(`typedefs_performAll`).  So the typedef that a type is lowered to once is the one that its key leads to ever after.
-/

namespace BlockForm

open Action

theorem Action.state_handle {σ : Type} (kind : HandleKind) (i : Nat) (s : σ) : (handle kind i s).state = s := by
  unfold handle
  split <;> rfl

namespace CompilationUnit

variable {u u' v : CompilationUnit}

/-! ## The table of typedefs only grows -/

/-- The typedefs stay when a function is entered, takes the place of another or is refused.  Replacing a function comes
before its handle is made, so that the step need not undo itself when it fails. -/
theorem addFunction_typedefs (f : Function) (u : CompilationUnit) : (addFunction f u).state.typedefs = u.typedefs := by
  let Same (v : CompilationUnit) : Prop := v.typedefs = u.typedefs
  unfold addFunction
  refine state_bind (R := Same) rfl fun w hw => ?_
  obtain ⟨rfl, -⟩ := gives_get.1 hw
  show Same (Outcome.state _)
  cases u.functions.indexOf? f.name with
  | some i =>
    refine state_bind (R := Same) rfl fun _ _ => ?_
    rw [state_handle]
    rfl
  | none =>
    refine state_bind (R := Same) (by rw [state_handle]; rfl) fun id _ => ?_
    rw [state_handle]
    exact state_bind (R := Same) rfl fun _ _ => rfl

/-- One addition, done or refused. -/
theorem typedefs_perform (a : Addition) (u : CompilationUnit) :
    u.typedefs.entries <+: (a.perform u).state.typedefs.entries := by
  have unchanged : ∀ {v : CompilationUnit}, v.typedefs = u.typedefs → u.typedefs.entries <+: v.typedefs.entries :=
    fun h => h ▸ List.prefix_refl _
  cases a with
  | function f =>
    rw [Addition.perform, state_ignore]
    exact unchanged (addFunction_typedefs f u)
  | typedef key t =>
    rw [Addition.perform, state_ignore]
    rcases addTypeDef_state key t u with heq | ⟨id, hadd⟩
    · exact unchanged (congrArg typedefs heq)
    · exact (extends_of_addTypeDef hadd).typedefs
  | literal content =>
    rw [Addition.perform, state_ignore]
    rcases state_of_restores (internLiteral_restores content) with heq | ⟨id, hadd⟩
    · exact unchanged (congrArg typedefs heq)
    · exact (extends_of_internLiteral hadd).typedefs
  | type ty =>
    rw [Addition.perform, state_ignore]
    exact (lowerType_appends ty u).1.typedefs

/-- Any number of additions, done or refused. -/
theorem typedefs_performAll (additions : List Addition) (u : CompilationUnit) :
    u.typedefs.entries <+: (Addition.performAll additions u).state.typedefs.entries := by
  induction additions generalizing u with
  | nil => exact List.prefix_refl _
  | cons a as ih => exact (typedefs_perform a u).trans (ih (a.perform u).state)

/-! ## What a key leads to -/

theorem typedefForKey?_mono (h : u.typedefs.entries <+: v.typedefs.entries) {key : String} {id : TypeDefId}
    (hid : u.typedefForKey? key = some id) : v.typedefForKey? key = some id := by
  obtain ⟨hi, hlt⟩ := typedefForKey?_eq_some.1 hid
  exact typedefForKey?_eq_some.2 ⟨Table.indexOf?_of_prefix h hi, hlt⟩

/-- The types that a unit lowers to a typedef it has are those with the key of the typedef. -/
theorem lowerType_iff_key {key : String} {id : TypeDefId} (hid : u.typedefForKey? key = some id) {ty : Ty} :
    Gives (lowerType ty) u (.composite id) u ↔ ty.isComposite = true ∧ ty.stripLeaf.key = key := by
  constructor
  · intro h
    rcases lowerType_key h with ⟨e, -, he⟩ | ⟨-, hc, id', hid', heq⟩
    · cases he
    · cases heq
      have hkey := Table.indexOf?_eq_some_iff.1 (typedefForKey?_eq_some.1 hid).1
      have hkey' := Table.indexOf?_eq_some_iff.1 (typedefForKey?_eq_some.1 hid').1
      exact ⟨hc, Option.some.inj (hkey'.symm.trans hkey)⟩
  · rintro ⟨hc, rfl⟩
    rw [lowerType]
    simp only [Ty.elementary?_of_isComposite hc, hc, if_true, gives_get_bind, hid, gives_pure, and_self]

/-- **A composite type has one typedef for the whole life of a unit.**  Once it has been lowered, then whatever is added
to the unit and whatever is refused, it is lowered to the same typedef again without a change to the unit, the typedef
is the same, and the types that share it are those with the same key. -/
theorem lowerType_stable {ty : Ty} {l : LoweredType} (hc : ty.isComposite = true) (h : Gives (lowerType ty) u l u')
    (additions : List Addition) :
    let v := (Addition.performAll additions u').state
    Gives (lowerType ty) v l v ∧
      (∃ id t, l = .composite id ∧ u'.typedefAt? id = some t ∧ v.typedefAt? id = some t) ∧
      ∀ ty' : Ty, Gives (lowerType ty') v l v ↔ ty'.isComposite = true ∧ ty'.stripLeaf.key = ty.stripLeaf.key := by
  intro v
  have hgrows : u'.typedefs.entries <+: v.typedefs.entries := typedefs_performAll additions u'
  rcases lowerType_key h with ⟨e, he, -⟩ | ⟨-, -, id, hid, rfl⟩
  · rw [Ty.elementary?_of_isComposite hc] at he
    cases he
  obtain ⟨t, -, ht⟩ := typedefAt?_of_key hid
  have hshared : ∀ ty' : Ty, Gives (lowerType ty') v (.composite id) v ↔
      ty'.isComposite = true ∧ ty'.stripLeaf.key = ty.stripLeaf.key :=
    fun _ => lowerType_iff_key (typedefForKey?_mono hgrows hid)
  exact ⟨(hshared ty).2 ⟨hc, rfl⟩, ⟨id, t, rfl, ht, Table.at?_of_prefix hgrows ht⟩, hshared⟩

end CompilationUnit

namespace Sample

open CompilationUnit

/-- The type is lowered first, then a function called like the literal is refused, a typedef under the key of the type
is refused, and a type that has it as a member is lowered. -/
def afterGrouped : List Addition :=
  [.literal "a", .function (.declaration (literalName "gstr" "a") [] .nil), .typedef grouped.key ⟨"again", false, []⟩,
    .type (.defined "pair" (.operator .product [grouped, entry]))]

theorem grouped_stable :
    let u := (lowerType grouped (.empty "sample" {})).state
    let v := (Addition.performAll afterGrouped u).state
    (u.typedefs.size = 4 ∧ v.typedefs.size = 7 ∧ v.functions.size = 0) ∧ grouped ≠ listed ∧
      Gives (lowerType grouped) v (.composite ⟨3⟩) v ∧ Gives (lowerType listed) v (.composite ⟨3⟩) v := by
  intro u v
  have hgrouped : Gives (lowerType grouped) (.empty "sample" {}) (.composite ⟨3⟩) u :=
    ⟨eq_ok_of_toOption (by decide +kernel), rfl⟩
  obtain ⟨hagain, -, hshared⟩ := lowerType_stable (by decide) hgrouped afterGrouped
  exact ⟨by decide +kernel, by decide, hagain, (hshared listed).2 (by decide)⟩

end Sample

end BlockForm
