import Mathlib.Logic.Relation
import BlockForm.Proofs.Interning

/-!
# BlockForm.Proofs.Typedefs — what the typedefs of a unit describe

Lowering a type changes a unit by adding typedefs, one at a time and each after those of its members, whether it
succeeds in the end or not (`lowerType_advances`).  `CompilationUnit.Interns` says all that one such addition, or that
of a literal, does; what every addition keeps, every run keeps.  Over a family of types with distinct keys
(`Ty.Family`), the typedef under a key describes the one type of the family with that key (`Described`).
-/

namespace BlockForm

open Action

/-! ## Families of types -/

namespace Ty

mutual

/-- The types that a type is made of, itself first. -/
def parts : Ty → List Ty
  | elementary e => [elementary e]
  | leaf name ty => leaf name ty :: ty.parts
  | operator op operands => operator op operands :: partsList operands
  | defined name body => defined name body :: body.parts

/-- The types that a list of types is made of. -/
def partsList : List Ty → List Ty
  | [] => []
  | ty :: tys => ty.parts ++ partsList tys

end

/-- No two different types among the given ones and their parts have the same key. -/
def DistinctKeys (tys : List Ty) : Prop :=
  ∀ a ∈ partsList tys, ∀ b ∈ partsList tys, a.key = b.key → a = b

instance (tys : List Ty) : Decidable (DistinctKeys tys) := inferInstanceAs (Decidable (∀ _ ∈ _, ∀ _ ∈ _, _))

/-- Types that are known by their keys, with the types they are made of. -/
structure Family (P : Ty → Prop) : Prop where
  leaf : ∀ {name ty}, P (leaf name ty) → P ty
  operand : ∀ {op operands}, P (operator op operands) → ∀ ty ∈ operands, P ty
  body : ∀ {name body}, P (defined name body) → P body
  key : ∀ {a b}, P a → P b → a.key = b.key → a = b

theorem self_mem_parts (ty : Ty) : ty ∈ ty.parts := by
  cases ty <;> simp [parts]

theorem parts_subset_partsList {ty : Ty} {tys : List Ty} (h : ty ∈ tys) : ty.parts ⊆ partsList tys := by
  induction tys with
  | nil => cases h
  | cons t ts ih =>
    rw [partsList]
    rcases List.mem_cons.1 h with rfl | h
    · exact List.subset_append_left _ _
    · exact fun a ha => List.mem_append_right _ (ih h ha)

mutual

/-- A part of a part is a part. -/
theorem parts_subset_of_mem : (ty : Ty) → ∀ {a : Ty}, a ∈ ty.parts → a.parts ⊆ ty.parts
  | elementary e, a, h => by
    rw [parts, List.mem_singleton] at h
    subst h
    exact fun _ hb => hb
  | leaf name ty, a, h => by
    rw [parts, List.mem_cons] at h
    rcases h with rfl | h
    · exact fun _ hb => hb
    · exact fun b hb => List.mem_cons_of_mem _ (parts_subset_of_mem ty h hb)
  | operator op operands, a, h => by
    rw [parts, List.mem_cons] at h
    rcases h with rfl | h
    · exact fun _ hb => hb
    · exact fun b hb => List.mem_cons_of_mem _ (parts_subset_of_mem_list operands h hb)
  | defined name body, a, h => by
    rw [parts, List.mem_cons] at h
    rcases h with rfl | h
    · exact fun _ hb => hb
    · exact fun b hb => List.mem_cons_of_mem _ (parts_subset_of_mem body h hb)

theorem parts_subset_of_mem_list : (tys : List Ty) → ∀ {a : Ty}, a ∈ partsList tys → a.parts ⊆ partsList tys
  | [], _, h => nomatch h
  | ty :: tys, a, h => by
    rw [partsList, List.mem_append] at h
    rw [partsList]
    rcases h with h | h
    · exact fun b hb => List.mem_append_left _ (parts_subset_of_mem ty h hb)
    · exact fun b hb => List.mem_append_right _ (parts_subset_of_mem_list tys h hb)

end

/-- The parts of types with distinct keys are a family. -/
theorem DistinctKeys.family {tys : List Ty} (h : DistinctKeys tys) : Family (· ∈ partsList tys) where
  leaf := fun {name ty} hmem =>
    parts_subset_of_mem_list tys hmem (by rw [parts]; exact List.mem_cons_of_mem _ (self_mem_parts ty))
  operand := fun hmem ty hty => by
    refine parts_subset_of_mem_list tys hmem ?_
    rw [parts]
    exact List.mem_cons_of_mem _ (parts_subset_partsList hty (self_mem_parts ty))
  body := fun {name body} hmem =>
    parts_subset_of_mem_list tys hmem (by rw [parts]; exact List.mem_cons_of_mem _ (self_mem_parts body))
  key := fun ha hb => h _ ha _ hb

/-! What lowering looks at is the same with and without member names at the top. -/

section

attribute [local simp] stripLeaf

theorem stripLeaf_stripLeaf (ty : Ty) : ty.stripLeaf.stripLeaf = ty.stripLeaf := by
  induction ty using stripLeaf.induct with
  | case1 name ty ih => exact ih
  | case2 ty h => cases ty <;> simp_all

theorem elementary?_stripLeaf (ty : Ty) : ty.stripLeaf.elementary? = ty.elementary? := by
  induction ty using stripLeaf.induct with
  | case1 name ty ih => exact ih
  | case2 ty h => cases ty <;> simp_all

theorem members_stripLeaf (ty : Ty) : ty.stripLeaf.members = ty.members := by
  induction ty using stripLeaf.induct with
  | case1 name ty ih => rw [stripLeaf, ih, members]
  | case2 ty h => cases ty <;> simp_all

theorem isSum_stripLeaf (ty : Ty) : ty.stripLeaf.isSum = ty.isSum := by
  induction ty using stripLeaf.induct with
  | case1 name ty ih => rw [stripLeaf, ih, isSum, isSum, operator?]
  | case2 ty h => cases ty <;> simp_all

theorem isComposite_stripLeaf (ty : Ty) : ty.stripLeaf.isComposite = ty.isComposite := by
  induction ty using stripLeaf.induct with
  | case1 name ty ih => rw [stripLeaf, ih, isComposite]
  | case2 ty h => cases ty <;> simp_all

end

theorem elementary?_of_isComposite {ty : Ty} (h : ty.isComposite = true) : ty.elementary? = none := by
  induction ty using isComposite.induct with
  | case2 name ty ih => exact ih h
  | case1 e => cases h
  | case3 op operands => rfl
  | case4 name body => rfl

namespace Family

variable {P : Ty → Prop}

theorem stripLeaf (hP : Family P) {ty : Ty} (h : P ty) : P ty.stripLeaf := by
  induction ty using Ty.stripLeaf.induct with
  | case1 name ty ih => exact ih (hP.leaf h)
  | case2 ty hty => cases ty <;> simp_all [Ty.stripLeaf]

theorem layoutOperands? (hP : Family P) {ty : Ty} {operands : List Ty} (h : P ty)
    (ho : ty.layoutOperands? = some operands) : ∀ m ∈ operands, P m := by
  induction ty using Ty.layoutOperands?.induct with
  | case1 e => cases ho
  | case2 name ty ih => exact ih (hP.leaf h) ho
  | case3 ops => cases ho
  | case4 op ops hop =>
    simp only [Ty.layoutOperands?, Option.some.injEq] at ho
    subst ho
    exact hP.operand h
  | case5 name body => cases ho

theorem members (hP : Family P) {ty : Ty} (h : P ty) : ∀ m ∈ ty.members, P m := by
  induction ty using Ty.members.induct with
  | case1 e => simp [Ty.members]
  | case2 name ty ih => exact ih (hP.leaf h)
  | case3 ops => simp [Ty.members]
  | case4 op ops hop =>
    have hmem : (Ty.operator op ops).members = ops := by simp only [Ty.members]
    rw [hmem]
    exact hP.operand h
  | case5 name body =>
    rw [Ty.members]
    cases hb : body.layoutOperands? with
    | none =>
      intro m hm
      obtain rfl := List.mem_singleton.1 hm
      exact hP.body h
    | some operands => exact hP.layoutOperands? (hP.body h) hb

/-- The types of a family that are nested less deep. -/
theorem below (hP : Family P) (n : Nat) : Family fun ty => P ty ∧ ty.height < n where
  leaf := fun {name ty} ⟨h, hlt⟩ => ⟨hP.leaf h, by rw [height] at hlt; omega⟩
  operand := fun {op operands} ⟨h, hlt⟩ ty hty => by
    have hle := height_le_heightList hty
    rw [height] at hlt
    exact ⟨hP.operand h ty hty, by omega⟩
  body := fun {name body} ⟨h, hlt⟩ => ⟨hP.body h, by rw [height] at hlt; omega⟩
  key := fun ha hb => hP.key ha.1 hb.1

end Family

end Ty

/-! ## Additions to a unit -/

namespace Action

variable {σ α β : Type}

/-- Where two steps in a row end, whether they succeed or not. -/
theorem state_bind {R : σ → Prop} {x : Action σ α} {f : α → Action σ β} {s : σ}
    (hx : R (x s).state) (hf : ∀ a, Gives x s a (x s).state → R (f a (x s).state).state) :
    R ((x >>= f) s).state := by
  show R (Action.bind x f s).state
  unfold Action.bind
  rcases hxs : x s with ⟨e | a, t, log⟩
  · rw [hxs] at hx
    exact hx
  · have := hf a ⟨by rw [hxs], rfl⟩
    rw [hxs] at this
    exact this

end Action

namespace CompilationUnit

variable {P : Ty → Prop} {u u' v : CompilationUnit}

/-- The unit has the lowered forms of the members, with their names. -/
def Lowers (u : CompilationUnit) (tys : List Ty) (members : List TypeMember) : Prop :=
  List.Forall₂ (fun ty m => m.name = ty.leafName? ∧ Gives (lowerType ty) u m.ty u) tys members

/-- One addition to a unit: the typedef of a type of `P` whose members have been lowered, or a literal. -/
inductive Interns (P : Ty → Prop) (u u' : CompilationUnit) : Prop where
  | typedef {ty : Ty} {members : List TypeMember} {id : TypeDefId} (family : P ty) (stripped : ty.stripLeaf = ty)
    (composite : ty.isComposite = true) (lowered : u.Lowers ty.members members)
    (added : Gives (addTypeDef ty.key (typedefOf ty members)) u id u')
  | literal {content : String} {id : GlobalId} (new : content ∉ u.globals.keys)
    (added : Gives (internLiteral content) u id u')

/-- Additions one after another. -/
abbrev Advances (P : Ty → Prop) : CompilationUnit → CompilationUnit → Prop := Relation.ReflTransGen (Interns P)

theorem Interns.extends (h : Interns P u u') : u.Extends u' := by
  cases h with
  | typedef _ _ _ _ added => exact extends_of_addTypeDef added
  | literal _ added => exact extends_of_internLiteral added

theorem Advances.extends (h : Advances P u u') : u.Extends u' := by
  induction h with
  | refl => exact .refl u
  | tail _ step ih => exact ih.trans step.extends

theorem Lowers.extends {tys : List Ty} {members : List TypeMember} (h : u.Lowers tys members) (hu : u.Extends u') :
    u'.Lowers tys members := by
  refine h.imp fun ty m hm => ⟨hm.1, ?_⟩
  exact lowerType_again hm.2 hu.typedefs

theorem lowers_of_mapM {tys : List Ty} {members : List TypeMember}
    (h : Gives (tys.mapM lowerMember) u members u') : u'.Lowers tys members := by
  induction tys generalizing u members with
  | nil =>
    simp only [gives_mapM_nil] at h
    rw [← h.1]
    exact .nil
  | cons ty tys ih =>
    obtain ⟨m, u₁, ms, h₁, h₂, rfl⟩ := gives_mapM_cons.1 h
    simp only [lowerMember, gives_bind, gives_pure] at h₁
    obtain ⟨t, _, ht, rfl, rfl⟩ := h₁
    have hext : Extends _ u' := mapM_lowerMember_keeps Extends.refl Extends.trans
      (fun _ _ _ _ _ h => extends_of_lowerType h) h₂
    exact .cons ⟨rfl, lowerType_again ht hext.typedefs⟩ (ih h₂)

/-- A typedef is added, or nothing is. -/
theorem addTypeDef_state (key : String) (t : TypeDef) (u : CompilationUnit) :
    (addTypeDef key t u).state = u ∨ ∃ id, Gives (addTypeDef key t) u id (addTypeDef key t u).state := by
  cases hr : (addTypeDef key t u).result with
  | ok id => exact Or.inr ⟨id, hr, rfl⟩
  | error e =>
    left
    by_cases hk : u.typedefs.contains key = true
    · simp [addTypeDef, bind, Action.bind, Action.get, hk, fault]
    · by_cases hlt : u.typedefs.size < Handle.limit
      · cases hn : u.names.get? t.name with
        | some o =>
          simp [addTypeDef, bind, Action.bind, Action.get, hk, handle, hlt, Action.pure, bindName, NameTable.bind, hn]
        | none =>
          simp [addTypeDef, bind, Action.bind, Action.get, hk, handle, hlt, Action.pure, bindName, NameTable.bind, hn,
            report, Action.modify, pure] at hr
      · simp [addTypeDef, bind, Action.bind, Action.get, hk, handle, hlt, fail]

theorem mapM_state {R : CompilationUnit → CompilationUnit → Prop} (refl : ∀ u, R u u)
    (trans : ∀ {u v w}, R u v → R v w → R u w) {tys : List Ty}
    (step : ∀ ty ∈ tys, ∀ u, R u (lowerType ty u).state) (u : CompilationUnit) :
    R u (tys.mapM lowerMember u).state := by
  induction tys generalizing u with
  | nil => exact refl u
  | cons ty tys ih =>
    rw [List.mapM_cons]
    have hstep := step ty (List.mem_cons_self ..) u
    refine state_bind (R := R u) (state_bind (R := R u) hstep fun a _ => hstep) fun m hm => ?_
    have hmid : R u (lowerMember ty u).state := state_bind (R := R u) hstep fun a _ => hstep
    have hrest := ih (fun t ht => step t (List.mem_cons_of_mem _ ht)) (lowerMember ty u).state
    exact state_bind (R := R u) (trans hmid hrest) fun ms _ => trans hmid hrest

/-- Lowering a type, with the lowering of its members as a traversal. -/
theorem lowerType_eq (ty : Ty) :
    lowerType ty =
      match ty.elementary? with
      | some e => pure (.elementary e)
      | none =>
        if ty.isComposite then do
          let u ← Action.get
          match u.typedefForKey? ty.stripLeaf.key with
          | some id => pure (.composite id)
          | none => do
            let members ← ty.members.mapM lowerMember
            let id ← addTypeDef ty.stripLeaf.key (typedefOf ty members)
            pure (.composite id)
        else Action.fault (.notAValueType ty.stripLeaf.key) := by
  have hm : (ty.members.attach.mapM fun x : { m // m ∈ ty.members } => lowerMember x.1) =
      ty.members.mapM lowerMember := by
    rw [List.mapM_subtype (g := lowerMember) (fun _ _ => rfl), List.unattach_attach]
  rw [lowerType, ← hm]
  rfl

theorem typedefOf_stripLeaf (ty : Ty) (members : List TypeMember) :
    typedefOf ty members = typedefOf ty.stripLeaf members := by
  simp only [typedefOf, Ty.typedefName, Ty.stripLeaf_stripLeaf, Ty.isSum_stripLeaf]

/-- **What every addition of a typedef keeps, lowering a type keeps**, also where it fails: the additions are those of
the type and of the members it is made of, each after its own members. -/
theorem lowerType_keeps {R : CompilationUnit → CompilationUnit → Prop} (refl : ∀ u, R u u)
    (trans : ∀ {u v w}, R u v → R v w → R u w) (members : ∀ {ty}, P ty → ∀ m ∈ ty.members, P m)
    (add : ∀ {ty ms u u' id}, P ty → ty.isComposite = true → u.Lowers ty.members ms →
      Gives (addTypeDef ty.stripLeaf.key (typedefOf ty ms)) u id u' → R u u')
    {ty : Ty} (hty : P ty) (u : CompilationUnit) : R u (lowerType ty u).state := by
  induction ty using members_induction generalizing u with
  | step ty ih =>
    have hmembers : ∀ u, R u (ty.members.mapM lowerMember u).state :=
      mapM_state refl trans fun m hm => ih m hm (members hty m hm)
    rw [lowerType_eq]
    cases he : ty.elementary? with
    | some e => exact refl u
    | none =>
      by_cases hc : ty.isComposite = true
      · simp only [hc, if_true]
        refine state_bind (R := R u) (refl u) fun w hw => ?_
        obtain ⟨rfl, -⟩ := gives_get.1 hw
        cases hk : u.typedefForKey? ty.stripLeaf.key with
        | some id => exact refl u
        | none =>
          refine state_bind (R := R u) (hmembers u) fun ms hms => ?_
          have hmade :
              R u (addTypeDef ty.stripLeaf.key (typedefOf ty ms) (ty.members.mapM lowerMember u).state).state := by
            rcases addTypeDef_state ty.stripLeaf.key (typedefOf ty ms) (ty.members.mapM lowerMember u).state with
              heq | ⟨id, hadd⟩
            · rw [heq]
              exact hmembers u
            · exact trans (hmembers u) (add hty hc (lowers_of_mapM hms) hadd)
          exact state_bind (R := R u) hmade fun id _ => hmade
      · simp only [hc]
        exact refl u

/-- **Lowering a type is a series of additions**, also where it fails. -/
theorem lowerType_advances (hP : Ty.Family P) {ty : Ty} (hty : P ty) (u : CompilationUnit) :
    Advances P u (lowerType ty u).state := by
  refine lowerType_keeps (fun _ => .refl) (fun h₁ h₂ => h₁.trans h₂) hP.members ?_ hty u
  intro ty ms u u' id hty hc hlow hadd
  rw [typedefOf_stripLeaf] at hadd
  refine .single (.typedef (hP.stripLeaf hty) (Ty.stripLeaf_stripLeaf ty) ?_ ?_ hadd)
  · rw [Ty.isComposite_stripLeaf, hc]
  · rw [Ty.members_stripLeaf]
    exact hlow

theorem advances_of_lowerType (hP : Ty.Family P) {ty : Ty} (hty : P ty) {l : LoweredType}
    (h : Gives (lowerType ty) u l u') : Advances P u u' := h.2 ▸ lowerType_advances hP hty u

theorem advances_of_internLiteral {content : String} {id : GlobalId} (h : Gives (internLiteral content) u id u') :
    Advances P u u' := by
  rcases internLiteral_gives h with ⟨-, rfl⟩ | ⟨hk, -, -, -, -⟩
  · exact .refl
  · exact .single (.literal hk h)

/-! ## Descriptions -/

/-- Typedef `i` is that of the type: its name, its kind, and its members, which are laid out before it. -/
structure Describes (u : CompilationUnit) (i : Nat) (ty : Ty) (t : TypeDef) : Prop where
  name : t.name = ty.typedefName ty.key
  isUnion : t.isUnion = ty.isSum
  members : u.Lowers ty.members t.members
  earlier : ∀ m ∈ t.members, ∀ id, m.ty.typedef? = some id → id.index < i

/-- Every typedef is that of a type of `P`, under the key of the type. -/
def Described (P : Ty → Prop) (u : CompilationUnit) : Prop :=
  ∀ {i key t}, u.typedefs.entries[i]? = some (key, t) →
    ∃ ty, P ty ∧ ty.stripLeaf = ty ∧ ty.isComposite = true ∧ ty.key = key ∧ u.Describes i ty t

theorem Describes.extends {i : Nat} {ty : Ty} {t : TypeDef} (h : u.Describes i ty t) (hu : u.Extends u') :
    u'.Describes i ty t := ⟨h.name, h.isUnion, h.members.extends hu, h.earlier⟩

theorem described_empty (name : String) (options : Options) : Described P (empty name options) := nofun

theorem Lowers.knows {tys : List Ty} {members : List TypeMember} (h : u.Lowers tys members) :
    ∀ m ∈ members, u.Knows m.ty := by
  induction h with
  | nil => exact nofun
  | cons hm _ ih =>
    intro m hmem
    rcases List.mem_cons.1 hmem with rfl | hmem
    · exact lowerType_knows hm.2
    · exact ih m hmem

theorem Described.interns (h : Described P u) (hstep : Interns P u u') : Described P u' := by
  have hext := hstep.extends
  cases hstep with
  | literal new added =>
    intro i key t ht
    rcases internLiteral_gives added with ⟨-, rfl⟩ | ⟨-, -, -, -, rfl⟩
    · exact h ht
    · obtain ⟨ty, hp, hs, hc, hk, hd⟩ := h ht
      exact ⟨ty, hp, hs, hc, hk, hd.extends hext⟩
  | @typedef ty members id family stripped composite lowered added =>
    intro i key t ht
    obtain ⟨hkey, -, -, -, rfl⟩ := addTypeDef_gives added
    simp only [Table.entries_insert_of_not_mem hkey] at ht
    by_cases hi : i < u.typedefs.entries.length
    · rw [List.getElem?_append_left hi] at ht
      obtain ⟨ty', hp, hs, hc, hk, hd⟩ := h ht
      exact ⟨ty', hp, hs, hc, hk, hd.extends hext⟩
    · -- The new entry is the last one, and its members refer to those before it.
      have hlen : i = u.typedefs.entries.length := by
        have := (List.getElem?_eq_some_iff.1 ht).1
        simp only [List.length_append, List.length_singleton] at this
        omega
      subst hlen
      simp only [List.getElem?_concat_length, Option.some.injEq, Prod.mk.injEq] at ht
      obtain ⟨rfl, rfl⟩ := ht
      refine ⟨ty, family, stripped, composite, rfl, ?_, rfl, lowered.extends hext, ?_⟩
      · rw [typedefOf, stripped]
      · exact lowered.knows

theorem Described.advances (h : Described P u) (hu : Advances P u u') : Described P u' := by
  induction hu with
  | refl => exact h
  | tail _ step ih => exact ih.interns step

theorem typedefAt?_of_key {key : String} {id : TypeDefId} (h : u.typedefForKey? key = some id) :
    ∃ t, u.typedefs.entries[id.index]? = some (key, t) ∧ u.typedefAt? id = some t := by
  have hi := Table.indexOf?_eq_some_iff.1 (typedefForKey?_eq_some.1 h).1
  simp only [Table.keys, List.getElem?_map, Option.map_eq_some_iff] at hi
  obtain ⟨⟨k, t⟩, ht, rfl⟩ := hi
  exact ⟨t, ht, by rw [CompilationUnit.typedefAt?, Table.at?, ht]; rfl⟩

/-- **The typedef of a lowered type describes the type**, whichever addition has made it. -/
theorem Described.of_lowerType (h : Described P u) (hP : Ty.Family P) {ty : Ty} (hty : P ty)
    (hc : ty.isComposite = true) {l : LoweredType} (hl : Gives (lowerType ty) u l u) :
    ∃ id t, l = .composite id ∧ u.typedefAt? id = some t ∧ u.typedefs.entries[id.index]? = some (ty.stripLeaf.key, t) ∧
      u.Describes id.index ty.stripLeaf t := by
  rcases lowerType_key hl with ⟨e, he, -⟩ | ⟨-, -, id, hid, rfl⟩
  · rw [Ty.elementary?_of_isComposite hc] at he
    cases he
  · obtain ⟨t, hent, hat⟩ := typedefAt?_of_key hid
    obtain ⟨ty', hp, -, -, hk, hd⟩ := h hent
    obtain rfl := hP.key hp (hP.stripLeaf hty) hk
    exact ⟨id, t, rfl, hat, hent, hd⟩

end CompilationUnit

end BlockForm
