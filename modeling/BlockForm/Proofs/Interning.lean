import Mathlib.Data.List.Nodup
import BlockForm.Proofs.Action

/-!
# BlockForm.Proofs.Interning — what a unit knows, and how it grows

Typedefs and literals are only ever appended, so a handle keeps its meaning (`CompilationUnit.Extends`).  The main
results are about `lowerType`: the unit is extended, the typedef of the lowered type is there
(`lowerType_knownIn`), and lowering the type again in any later unit gives the same answer and changes nothing
(`lowerType_again`).
-/

namespace BlockForm

open Action

/-! ## Tables -/

namespace Table

variable {α : Type} {t t' : Table α} {key : String}

theorem contains_iff : t.contains key = true ↔ key ∈ t.keys := by simp [contains]

theorem entries_insert_of_not_mem (h : key ∉ t.keys) (value : α) :
    (t.insert key value).entries = t.entries ++ [(key, value)] := by
  simp [insert, h]

theorem entries_insert_of_mem (h : key ∈ t.keys) (value : α) :
    (t.insert key value).entries = replaced key value t.entries := by
  simp [insert, h]

theorem indexOf?_eq_some_iff {i : Nat} :
    t.indexOf? key = some i ↔ t.keys[i]? = some key := by
  unfold indexOf?
  rw [List.idxOf?_eq_some_iff]
  constructor
  · rintro ⟨hi, he, -⟩
    rw [List.getElem?_eq_getElem hi, he]
  · intro h
    obtain ⟨hi, he⟩ := List.getElem?_eq_some_iff.1 h
    refine ⟨hi, he, fun j hj hje => ?_⟩
    have := (List.Nodup.getElem_inj_iff t.nodup).1 (hje.trans he.symm)
    omega

theorem indexOf?_isSome_iff : (t.indexOf? key).isSome ↔ key ∈ t.keys := by
  simp [indexOf?, List.isSome_idxOf?]

/-- Positions are kept when entries are appended. -/
theorem indexOf?_of_prefix {i : Nat} (h : t.entries <+: t'.entries) (hi : t.indexOf? key = some i) :
    t'.indexOf? key = some i := by
  rw [indexOf?_eq_some_iff] at hi ⊢
  have hk : t.keys <+: t'.keys := h.map Prod.fst
  obtain ⟨r, hr⟩ := hk
  rw [← hr, List.getElem?_append_left (List.getElem?_eq_some_iff.1 hi).1, hi]

theorem at?_of_prefix {i : Nat} {a : α} (h : t.entries <+: t'.entries) (ha : t.at? i = some a) :
    t'.at? i = some a := by
  obtain ⟨r, hr⟩ := h
  unfold at? at ha ⊢
  cases hi : t.entries[i]? with
  | none => simp [hi] at ha
  | some e =>
    rw [← hr, List.getElem?_append_left (List.getElem?_eq_some_iff.1 hi).1]
    exact ha

theorem indexOf?_insert_self (h : key ∉ t.keys) (value : α) : (t.insert key value).indexOf? key = some t.size := by
  rw [indexOf?_eq_some_iff]
  simp [keys, entries_insert_of_not_mem h, size]

theorem prefix_insert_of_not_mem (h : key ∉ t.keys) (value : α) : t.entries <+: (t.insert key value).entries := by
  rw [entries_insert_of_not_mem h]
  exact List.prefix_append _ _

theorem find?_replaced_self {key : String} {value : α} {es : List (String × α)} (h : key ∈ es.map Prod.fst) :
    (replaced key value es).find? (fun e => e.1 == key) = some (key, value) := by
  induction es with
  | nil => cases h
  | cons e es ih =>
    have hcons : replaced key value (e :: es) =
      (if e.1 = key then (key, value) else e) :: replaced key value es := rfl
    rw [hcons]
    by_cases he : e.1 = key
    · simp [he]
    · have hne : (e.1 == key) = false := by simpa using he
      rw [if_neg he, List.find?_cons, hne]
      exact ih (by simpa [Ne.symm he] using h)

theorem find?_replaced_of_ne {key k : String} (hk : k ≠ key) (value : α) (es : List (String × α)) :
    (replaced key value es).find? (fun e => e.1 == k) = es.find? fun e => e.1 == k := by
  induction es with
  | nil => rfl
  | cons e es ih =>
    have hcons : replaced key value (e :: es) =
      (if e.1 = key then (key, value) else e) :: replaced key value es := rfl
    rw [hcons, List.find?_cons, List.find?_cons, ih]
    by_cases he : e.1 = key
    · have h₁ : (key == k) = false := by simpa using Ne.symm hk
      have h₂ : (e.1 == k) = false := by rw [he, h₁]
      simp only [he, if_true, h₁]
    · rw [if_neg he]

/-- The value under a name is the one put there last. -/
theorem get?_insert (t : Table α) (key k : String) (value : α) :
    (t.insert key value).get? k = if k = key then some value else t.get? k := by
  by_cases h : key ∈ t.keys
  · rw [get?, entries_insert_of_mem h]
    by_cases hk : k = key
    · subst hk
      rw [find?_replaced_self h, if_pos rfl]
      rfl
    · rw [find?_replaced_of_ne hk, if_neg hk]
      rfl
  · rw [get?, entries_insert_of_not_mem h, List.find?_append]
    by_cases hk : k = key
    · subst hk
      have hnone : t.entries.find? (fun e => e.1 == k) = none := by
        rw [List.find?_eq_none]
        intro e he hek
        exact h (by simpa [keys] using ⟨e.2, by simpa using (beq_iff_eq.1 hek) ▸ he⟩)
      simp [hnone]
    · have hne : ¬ key = k := fun he => hk he.symm
      simp [hk, hne, get?]

/-- A value of the table is the one put there or an old one. -/
theorem mem_values_insert {t : Table α} {key : String} {value a : α} (h : a ∈ (t.insert key value).values) :
    a = value ∨ a ∈ t.values := by
  obtain ⟨e, he, rfl⟩ := List.mem_map.1 h
  by_cases hk : key ∈ t.keys
  · rw [entries_insert_of_mem hk] at he
    obtain ⟨e', he', rfl⟩ := List.mem_map.1 he
    split
    · exact Or.inl rfl
    · exact Or.inr (List.mem_map_of_mem he')
  · rw [entries_insert_of_not_mem hk] at he
    rcases List.mem_append.1 he with he | he
    · exact Or.inr (List.mem_map_of_mem he)
    · exact Or.inl (by rw [List.mem_singleton.1 he])

end Table

namespace CompilationUnit

variable {u u' u'' : CompilationUnit}

/-! ## Extension -/

/-- A unit with perhaps more typedefs and literals. -/
structure Extends (u u' : CompilationUnit) : Prop where
  name : u'.name = u.name
  options : u'.options = u.options
  functions : u'.functions = u.functions
  typedefs : u.typedefs.entries <+: u'.typedefs.entries
  globals : u.globals.entries <+: u'.globals.entries

namespace Extends

theorem refl (u : CompilationUnit) : Extends u u :=
  ⟨rfl, rfl, rfl, List.prefix_refl _, List.prefix_refl _⟩

theorem trans (h₁ : Extends u u') (h₂ : Extends u' u'') : Extends u u'' :=
  ⟨h₂.name.trans h₁.name, h₂.options.trans h₁.options, h₂.functions.trans h₁.functions,
    h₁.typedefs.trans h₂.typedefs, h₁.globals.trans h₂.globals⟩

theorem typedefs_size_le (h : Extends u u') : u.typedefs.size ≤ u'.typedefs.size := h.typedefs.length_le

end Extends

/-- The typedef a lowered type refers to is one of the unit. -/
def Knows (u : CompilationUnit) (ty : LoweredType) : Prop :=
  ∀ id, ty.typedef? = some id → id.index < u.typedefs.size

theorem Knows.mono {ty : LoweredType} (h : u.Knows ty) (hu : u.typedefs.size ≤ u'.typedefs.size) :
    u'.Knows ty := fun id hid => Nat.lt_of_lt_of_le (h id hid) hu

theorem knows_elementary (u : CompilationUnit) (e : Elementary) : u.Knows (.elementary e) := by
  intro id hid
  simp [LoweredType.elementary, LoweredType.typedef?] at hid

theorem Knows.pointerTo {ty : LoweredType} (h : u.Knows ty) : u.Knows ty.pointerTo := h

theorem Knows.pointee {ty : LoweredType} (h : u.Knows ty) : u.Knows ty.pointee := h

theorem Knows.asArgument {ty : LoweredType} (h : u.Knows ty) : u.Knows ty.asArgument := by
  unfold LoweredType.asArgument
  split
  · exact h.pointerTo
  · exact h

/-- A type without a typedef is known to every unit. -/
theorem knows_of_isScalar (u : CompilationUnit) {ty : LoweredType} (h : ty.isScalar = true) : u.Knows ty := by
  intro id hid
  obtain ⟨kind, pointer⟩ := ty
  cases kind with
  | elementary e => simp [LoweredType.typedef?] at hid
  | composite id => simp [LoweredType.isScalar, LoweredType.isElementary, LoweredType.elementary?] at h

/-- Every type of a member refers to a typedef of the unit. -/
def MembersKnown (u : CompilationUnit) : Prop :=
  ∀ t ∈ u.typedefs.values, ∀ m ∈ t.members, u.Knows m.ty

/-! ## Steps -/

theorem bindName_gives {name : String} {object : Object} {a : Unit} :
    Gives (bindName name object) u a u' ↔
      u.names.get? name = none ∧ { u with names := u.names.insert name object } = u' := by
  unfold Gives bindName NameTable.bind
  cases u.names.get? name <;> simp

theorem addTypeDef_gives {key : String} {t : TypeDef} {id : TypeDefId} (h : Gives (addTypeDef key t) u id u') :
    key ∉ u.typedefs.keys ∧ u.typedefs.size < Handle.limit ∧ u.names.get? t.name = none ∧
      id = ⟨u.typedefs.size⟩ ∧
      u' = { u with names := u.names.insert t.name (.typedef id), typedefs := u.typedefs.insert key t } := by
  simp only [addTypeDef, gives_get_bind, gives_ite, not_gives_fault, and_false, false_or, gives_handle_bind,
    gives_bind (x := bindName _ _), bindName_gives, gives_report_bind, gives_modify_bind, gives_pure] at h
  obtain ⟨hk, hlt, _, _, ⟨hn, rfl⟩, rfl, rfl⟩ := h
  exact ⟨fun hm => hk (Table.contains_iff.2 hm), hlt, hn, rfl, rfl⟩

theorem extends_of_addTypeDef {key : String} {t : TypeDef} {id : TypeDefId}
    (h : Gives (addTypeDef key t) u id u') : u.Extends u' := by
  obtain ⟨hk, -, -, -, rfl⟩ := addTypeDef_gives h
  exact ⟨rfl, rfl, rfl, Table.prefix_insert_of_not_mem hk t, List.prefix_refl _⟩

theorem internLiteral_gives {content : String} {id : GlobalId} (h : Gives (internLiteral content) u id u') :
    (u.globals.indexOf? content = some id.index ∧ u' = u) ∨
      (content ∉ u.globals.keys ∧ u.globals.size < Handle.limit ∧
        u.names.get? (literalName u.options.literalStem content) = none ∧ id = ⟨u.globals.size⟩ ∧
        u' = { u with
          names := u.names.insert (literalName u.options.literalStem content) (.global id)
          globals := u.globals.insert content
            ⟨literalName u.options.literalStem content, .elementary .string, content⟩ }) := by
  simp only [internLiteral, gives_get_bind] at h
  cases hi : u.globals.indexOf? content with
  | some i =>
    rw [hi] at h
    simp only [gives_handle] at h
    obtain ⟨-, rfl, rfl⟩ := h
    exact Or.inl ⟨rfl, rfl⟩
  | none =>
    rw [hi] at h
    simp only [gives_handle_bind, gives_bind (x := bindName _ _), bindName_gives, gives_report_bind,
      gives_modify_bind, gives_pure] at h
    obtain ⟨hlt, _, _, ⟨hn, rfl⟩, rfl, rfl⟩ := h
    refine Or.inr ⟨fun hm => ?_, hlt, hn, rfl, rfl⟩
    have := Table.indexOf?_isSome_iff.2 hm
    simp [hi] at this

theorem extends_of_internLiteral {content : String} {id : GlobalId}
    (h : Gives (internLiteral content) u id u') : u.Extends u' := by
  rcases internLiteral_gives h with ⟨-, rfl⟩ | ⟨hk, -, -, -, rfl⟩
  · exact .refl u'
  · exact ⟨rfl, rfl, rfl, List.prefix_refl _, Table.prefix_insert_of_not_mem hk _⟩

/-! ## Lowering of types -/

/-- The lowered form of a member. -/
def lowerMember (member : Ty) : Interning TypeMember := do
  let lowered ← lowerType member
  return ⟨member.leafName?, lowered⟩

/-- The typedef of a composite type whose members have been lowered. -/
def typedefOf (ty : Ty) (members : List TypeMember) : TypeDef :=
  ⟨ty.typedefName ty.stripLeaf.key, ty.isSum, members⟩

/-- A lowered type is elementary, or the typedef found under the key of the type, or one made after the typedefs
of the members. -/
theorem lowerType_gives {ty : Ty} {t : LoweredType} (h : Gives (lowerType ty) u t u') :
    (∃ e, ty.elementary? = some e ∧ t = .elementary e ∧ u' = u) ∨
    (ty.elementary? = none ∧ ty.isComposite = true ∧
      ∃ id, u.typedefForKey? ty.stripLeaf.key = some id ∧ t = .composite id ∧ u' = u) ∨
    (ty.elementary? = none ∧ ty.isComposite = true ∧ u.typedefForKey? ty.stripLeaf.key = none ∧
      ∃ members u₁ id, Gives (ty.members.mapM lowerMember) u members u₁ ∧
        Gives (addTypeDef ty.stripLeaf.key (typedefOf ty members)) u₁ id u' ∧ t = .composite id) := by
  rw [lowerType] at h
  cases he : ty.elementary? with
  | some e =>
    rw [he] at h
    simp only [gives_pure] at h
    exact Or.inl ⟨e, rfl, h.1.symm, h.2.symm⟩
  | none =>
    rw [he] at h
    simp only [gives_ite, not_gives_fault, and_false, or_false, gives_get_bind] at h
    obtain ⟨hc, h⟩ := h
    cases hk : u.typedefForKey? ty.stripLeaf.key with
    | some id =>
      rw [hk] at h
      simp only [gives_pure] at h
      exact Or.inr (Or.inl ⟨rfl, hc, id, rfl, h.1.symm, h.2.symm⟩)
    | none =>
      rw [hk] at h
      have hm : (ty.members.attach.mapM fun x : { m // m ∈ ty.members } => lowerMember x.1) =
          ty.members.mapM lowerMember := by
        rw [List.mapM_subtype (g := lowerMember) (fun _ _ => rfl), List.unattach_attach]
      simp only [gives_bind (x := List.mapM _ _), gives_bind (x := addTypeDef _ _), gives_pure] at h
      obtain ⟨members, u₁, h₁, id, _, h₂, rfl, rfl⟩ := h
      exact Or.inr (Or.inr ⟨rfl, hc, rfl, members, u₁, id, hm ▸ h₁, h₂, rfl⟩)

/-- Induction on a type through its members. -/
theorem members_induction {P : Ty → Prop} (step : ∀ ty : Ty, (∀ m ∈ ty.members, P m) → P ty) (ty : Ty) : P ty := by
  induction hn : ty.height using Nat.strongRecOn generalizing ty with
  | ind n ih =>
    subst hn
    exact step ty fun m hm => ih _ (Ty.height_lt_of_mem_members hm) m rfl

/-- What every lowering of a member keeps, the lowering of all of them keeps. -/
theorem mapM_lowerMember_keeps {R : CompilationUnit → CompilationUnit → Prop} (refl : ∀ u, R u u)
    (trans : ∀ {u v w}, R u v → R v w → R u w) {tys : List Ty}
    (step : ∀ ty ∈ tys, ∀ u t u', Gives (lowerType ty) u t u' → R u u') {members : List TypeMember}
    (h : Gives (tys.mapM lowerMember) u members u') : R u u' := by
  induction tys generalizing u members with
  | nil =>
    simp only [gives_mapM_nil] at h
    exact h.2 ▸ refl u
  | cons ty tys ih =>
    obtain ⟨m, u₁, ms, h₁, h₂, -⟩ := gives_mapM_cons.1 h
    simp only [lowerMember, gives_bind, gives_pure] at h₁
    obtain ⟨t, _, ht, -, rfl⟩ := h₁
    exact trans (step ty (List.mem_cons_self ..) _ _ _ ht)
      (ih (fun ty' h' => step ty' (List.mem_cons_of_mem _ h')) h₂)

theorem extends_of_lowerType {ty : Ty} : ∀ {u t u'}, Gives (lowerType ty) u t u' → u.Extends u' := by
  induction ty using members_induction with
  | step ty ih =>
    intro u t u' h
    rcases lowerType_gives h with ⟨_, -, -, rfl⟩ | ⟨-, -, _, -, -, rfl⟩ | ⟨-, -, -, members, u₁, id, h₁, h₂, -⟩
    · exact .refl _
    · exact .refl _
    · have hm : u.Extends u₁ :=
        mapM_lowerMember_keeps Extends.refl Extends.trans (fun m hm _ _ _ h => ih m hm h) h₁
      exact hm.trans (extends_of_addTypeDef h₂)

theorem globals_of_lowerType {ty : Ty} : ∀ {u t u'}, Gives (lowerType ty) u t u' → u'.globals = u.globals := by
  induction ty using members_induction with
  | step ty ih =>
    intro u t u' h
    rcases lowerType_gives h with ⟨_, -, -, rfl⟩ | ⟨-, -, _, -, -, rfl⟩ | ⟨-, -, -, members, u₁, id, h₁, h₂, -⟩
    · rfl
    · rfl
    · have hm : u₁.globals = u.globals :=
        mapM_lowerMember_keeps (R := fun u v => v.globals = u.globals) (fun _ => rfl)
          (fun h₁ h₂ => h₂.trans h₁) (fun m hm _ _ _ h => ih m hm h) h₁
      obtain ⟨-, -, -, -, rfl⟩ := addTypeDef_gives h₂
      exact hm

theorem typedefForKey?_eq_some {key : String} {id : TypeDefId} :
    u.typedefForKey? key = some id ↔ u.typedefs.indexOf? key = some id.index ∧ id.index < Handle.limit := by
  unfold typedefForKey?
  cases u.typedefs.indexOf? key with
  | none => simp
  | some i =>
    by_cases hi : i < Handle.limit
    · simp only [hi, if_true, Option.some.injEq]
      constructor
      · rintro rfl
        exact ⟨rfl, hi⟩
      · rintro ⟨rfl, -⟩
        rfl
    · simp only [hi, if_false, reduceCtorEq, Option.some.injEq, false_iff, not_and]
      rintro rfl
      exact hi

/-- A made typedef is found under its key. -/
theorem typedefForKey?_of_addTypeDef {key : String} {t : TypeDef} {id : TypeDefId}
    (h : Gives (addTypeDef key t) u id u') : u'.typedefForKey? key = some id := by
  obtain ⟨hk, hlt, -, rfl, rfl⟩ := addTypeDef_gives h
  exact typedefForKey?_eq_some.2 ⟨Table.indexOf?_insert_self hk t, hlt⟩

/-- The typedef a type is found under is the one its key leads to from then on. -/
theorem lowerType_key {ty : Ty} {t : LoweredType} (h : Gives (lowerType ty) u t u') :
    (∃ e, ty.elementary? = some e ∧ t = .elementary e) ∨
    (ty.elementary? = none ∧ ty.isComposite = true ∧
      ∃ id, u'.typedefForKey? ty.stripLeaf.key = some id ∧ t = .composite id) := by
  rcases lowerType_gives h with
    ⟨e, he, rfl, -⟩ | ⟨he, hc, id, hid, rfl, rfl⟩ | ⟨he, hc, -, members, u₁, id, -, h₂, rfl⟩
  · exact Or.inl ⟨e, he, rfl⟩
  · exact Or.inr ⟨he, hc, id, hid, rfl⟩
  · exact Or.inr ⟨he, hc, id, typedefForKey?_of_addTypeDef h₂, rfl⟩

/-- **A lowered type is lowered alike in every later unit**, which it does not change. -/
theorem lowerType_again {ty : Ty} {t : LoweredType} (h : Gives (lowerType ty) u t u')
    (hv : u'.typedefs.entries <+: u''.typedefs.entries) : Gives (lowerType ty) u'' t u'' := by
  rw [lowerType]
  rcases lowerType_key h with ⟨e, he, rfl⟩ | ⟨he, hc, id, hid, rfl⟩
  · simp [he]
  · obtain ⟨hi, hlt⟩ := typedefForKey?_eq_some.1 hid
    have hid' := typedefForKey?_eq_some.2 ⟨Table.indexOf?_of_prefix hv hi, hlt⟩
    simp only [he, hc, if_true, gives_get_bind, hid', gives_pure, and_self]

/-- The lowered form of a type is a value, not an address. -/
theorem lowerType_isPointer {ty : Ty} {t : LoweredType} (h : Gives (lowerType ty) u t u') : t.isPointer = false := by
  rcases lowerType_key h with ⟨_, -, rfl⟩ | ⟨-, -, _, -, rfl⟩ <;> rfl

theorem lowerType_knows {ty : Ty} {t : LoweredType} (h : Gives (lowerType ty) u t u') : u'.Knows t := by
  rcases lowerType_key h with ⟨e, -, rfl⟩ | ⟨-, -, id, hid, rfl⟩
  · exact knows_elementary u' e
  · intro id' hid'
    cases hid'
    have hi := Table.indexOf?_eq_some_iff.1 (typedefForKey?_eq_some.1 hid).1
    simpa [Table.keys, Table.size] using (List.getElem?_eq_some_iff.1 hi).1

theorem mapM_lowerMember_knows {tys : List Ty} {members : List TypeMember}
    (h : Gives (tys.mapM lowerMember) u members u') : ∀ m ∈ members, u'.Knows m.ty := by
  induction tys generalizing u members with
  | nil =>
    simp only [gives_mapM_nil] at h
    simp [← h.1]
  | cons ty tys ih =>
    obtain ⟨m, u₁, ms, h₁, h₂, rfl⟩ := gives_mapM_cons.1 h
    simp only [lowerMember, gives_bind, gives_pure] at h₁
    obtain ⟨t, _, ht, rfl, rfl⟩ := h₁
    have hext : Extends _ u' := mapM_lowerMember_keeps Extends.refl Extends.trans
      (fun _ _ _ _ _ h => extends_of_lowerType h) h₂
    intro m hm
    rcases List.mem_cons.1 hm with rfl | hm
    · exact (lowerType_knows ht).mono hext.typedefs_size_le
    · exact ih h₂ m hm

theorem membersKnown_of_addTypeDef {key : String} {t : TypeDef} {id : TypeDefId} (hu : u.MembersKnown)
    (ht : ∀ m ∈ t.members, u.Knows m.ty) (h : Gives (addTypeDef key t) u id u') : u'.MembersKnown := by
  have hle := (extends_of_addTypeDef h).typedefs_size_le
  obtain ⟨hk, -, -, -, rfl⟩ := addTypeDef_gives h
  intro t' ht' m hm
  simp only [Table.values, Table.entries_insert_of_not_mem hk, List.map_append, List.map_cons, List.map_nil,
    List.mem_append, List.mem_singleton] at ht'
  rcases ht' with ht' | rfl
  · exact (hu t' ht' m hm).mono hle
  · exact (ht m hm).mono hle

theorem membersKnown_of_lowerType {ty : Ty} :
    ∀ {u t u'}, Gives (lowerType ty) u t u' → u.MembersKnown → u'.MembersKnown := by
  induction ty using members_induction with
  | step ty ih =>
    intro u t u' h hu
    rcases lowerType_gives h with ⟨_, -, -, rfl⟩ | ⟨-, -, _, -, -, rfl⟩ | ⟨-, -, -, members, u₁, id, h₁, h₂, -⟩
    · exact hu
    · exact hu
    · have hm : u.MembersKnown → u₁.MembersKnown :=
        mapM_lowerMember_keeps (R := fun u v => u.MembersKnown → v.MembersKnown) (fun _ h => h)
          (fun h₁ h₂ h => h₂ (h₁ h)) (fun m hm _ _ _ h => ih m hm h) h₁
      exact membersKnown_of_addTypeDef (hm hu) (mapM_lowerMember_knows h₁) h₂

end CompilationUnit

end BlockForm
