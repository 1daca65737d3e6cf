import Mathlib.Data.List.Perm.Subperm
import BlockForm.Proofs.Correspondence
import BlockForm.Proofs.Program
import BlockForm.Proofs.Typedefs

/-!
# BlockForm.Proofs.Embedding — units whose objects are objects of another

An orderly unit has one name for each typedef, literal and function it holds, and every name says what it belongs to.
A unit is embedded in another if it is orderly and all its objects are objects of the other one, perhaps made in another
order.  Whatever the larger unit holds can still be added to an embedded one, which stays embedded: its name is free,
because the larger unit gives it to this object and no other (`Embedded.fresh`), and there is room for it.  So a type
that the larger unit has lowered can be lowered in an embedded one (`Embedded.lowerType`).
-/

namespace BlockForm

open Action

namespace Table

variable {α : Type} {t t' : Table α} {key : String}

theorem keys_insert_of_not_mem (h : key ∉ t.keys) (value : α) : (t.insert key value).keys = t.keys ++ [key] := by
  simp [keys, entries_insert_of_not_mem h]

theorem keys_insert_of_mem (h : key ∈ t.keys) (value : α) : (t.insert key value).keys = t.keys := by
  rw [keys, entries_insert_of_mem h, map_fst_replaced, keys]

theorem get?_eq_none_iff : t.get? key = none ↔ key ∉ t.keys := by
  simp only [get?, keys, Option.map_eq_none_iff, List.find?_eq_none, beq_iff_eq, List.mem_map, not_exists, not_and]

/-- A table with fewer keys has fewer entries. -/
theorem size_lt_of_subset (h : t.keys ⊆ t'.keys) (hk : key ∈ t'.keys) (hn : key ∉ t.keys) : t.size < t'.size := by
  have hnd : (key :: t.keys).Nodup := List.nodup_cons.2 ⟨hn, t.nodup⟩
  have hle := (hnd.subperm (List.cons_subset.2 ⟨hk, h⟩)).length_le
  simp only [List.length_cons, keys, List.length_map] at hle
  exact hle

end Table

namespace CompilationUnit

variable {P : Ty → Prop} {u u' F t : CompilationUnit}

/-! ## Objects and names -/

/-- What a typedef, literal or function is found under. -/
inductive ObjectKey where
  | typedef (key : String)
  | global (content : String)
  | function (name : String)

/-- The objects of a unit with their names. -/
def objects (u : CompilationUnit) : List (ObjectKey × String) :=
  u.typedefs.entries.map (fun e => (.typedef e.1, e.2.name)) ++
    (u.globals.entries.map (fun e => (.global e.1, e.2.name)) ++ u.functions.keys.map fun n => (.function n, n))

theorem typedef_mem_objects {key name : String} :
    (.typedef key, name) ∈ u.objects ↔ ∃ t, (key, t) ∈ u.typedefs.entries ∧ t.name = name := by
  simp [objects]

theorem global_mem_objects {content name : String} :
    (.global content, name) ∈ u.objects ↔ ∃ g, (content, g) ∈ u.globals.entries ∧ g.name = name := by
  simp [objects]

theorem function_mem_objects {n name : String} :
    (.function n, name) ∈ u.objects ↔ n ∈ u.functions.keys ∧ n = name := by
  simp only [objects, List.mem_append, List.mem_map, Prod.mk.injEq, reduceCtorEq, false_and, and_false, exists_false,
    false_or, ObjectKey.function.injEq]
  constructor
  · rintro ⟨_, hmem, rfl, rfl⟩
    exact ⟨hmem, rfl⟩
  · rintro ⟨hmem, rfl⟩
    exact ⟨n, hmem, rfl, rfl⟩

/-- A unit in which every object has a name of its own, and every typedef and literal is that of a type of `P` or a
content. -/
structure Orderly (P : Ty → Prop) (u : CompilationUnit) : Prop where
  described : Described P u
  literals : ∀ content g, (content, g) ∈ u.globals.entries →
    g = ⟨literalName u.options.literalStem content, .elementary .string, content⟩
  names : u.names.keys.Perm (u.objects.map Prod.snd)
  typedefs_le : u.typedefs.size ≤ Handle.limit
  globals_le : u.globals.size ≤ Handle.limit
  functions_le : u.functions.size ≤ Handle.limit

theorem orderly_empty (name : String) (options : Options) : Orderly P (empty name options) where
  described := described_empty name options
  literals := nofun
  names := .nil
  typedefs_le := Nat.zero_le _
  globals_le := Nat.zero_le _
  functions_le := Nat.zero_le _

/-! What an addition does to the objects. -/

theorem objects_addTypeDef {key : String} {t : TypeDef} {id : TypeDefId} (h : Gives (addTypeDef key t) u id u') :
    u'.objects.Perm ((.typedef key, t.name) :: u.objects) := by
  obtain ⟨hk, -, -, -, rfl⟩ := addTypeDef_gives h
  simp only [objects, Table.entries_insert_of_not_mem hk, List.map_append, List.map_cons, List.map_nil,
    List.append_assoc]
  exact List.perm_middle

theorem objects_internLiteral {content : String} {id : GlobalId} (hnew : content ∉ u.globals.keys)
    (h : Gives (internLiteral content) u id u') :
    u'.objects.Perm ((.global content, literalName u.options.literalStem content) :: u.objects) := by
  rcases internLiteral_gives h with ⟨hi, -⟩ | ⟨-, -, -, -, rfl⟩
  · exact absurd (Table.indexOf?_isSome_iff.1 (by rw [hi]; rfl)) hnew
  · simp only [objects, Table.entries_insert_of_not_mem hnew, List.map_append, List.map_cons, List.map_nil,
      List.append_assoc]
    exact (List.perm_middle.append_left _).trans List.perm_middle

/-- A literal is found under its content. -/
theorem internLiteral_key {content : String} {id : GlobalId} (h : Gives (internLiteral content) u id u') :
    u'.globals.keys[id.index]? = some content := by
  rw [← Table.indexOf?_eq_some_iff]
  rcases internLiteral_gives h with ⟨hi, rfl⟩ | ⟨hnew, -, -, rfl, rfl⟩
  · exact hi
  · exact Table.indexOf?_insert_self hnew _

/-- What adding a function does to the unit. -/
theorem addFunction_cases {f : Function} {id : FunctionId} (h : Gives (addFunction f) u id u') :
    (f.name ∈ u.functions.keys ∧ u' = { u with functions := u.functions.insert f.name f }) ∨
      (f.name ∉ u.functions.keys ∧ u.functions.size < Handle.limit ∧ u.names.get? f.name = none ∧
        u' = { u with
          names := u.names.insert f.name (.function id)
          functions := u.functions.insert f.name f }) := by
  simp only [addFunction, gives_get_bind] at h
  cases hi : u.functions.indexOf? f.name with
  | some i =>
    rw [hi] at h
    simp only [gives_bind, gives_set, gives_handle] at h
    obtain ⟨_, _, rfl, -, -, rfl⟩ := h
    exact Or.inl ⟨Table.indexOf?_isSome_iff.1 (by rw [hi]; rfl), rfl⟩
  | none =>
    rw [hi] at h
    simp only [gives_handle_bind, gives_bind (x := bindName _ _), bindName_gives, gives_modify_bind, gives_pure] at h
    obtain ⟨hlt, _, _, ⟨hn, rfl⟩, rfl, rfl⟩ := h
    refine Or.inr ⟨fun hm => ?_, hlt, hn, rfl⟩
    have := Table.indexOf?_isSome_iff.2 hm
    simp [hi] at this

theorem objects_addFunction {f : Function} {id : FunctionId} (hnew : f.name ∉ u.functions.keys)
    (h : Gives (addFunction f) u id u') : u'.objects.Perm ((.function f.name, f.name) :: u.objects) := by
  rcases addFunction_cases h with ⟨hmem, -⟩ | ⟨-, -, -, rfl⟩
  · exact absurd hmem hnew
  · simp only [objects, Table.keys_insert_of_not_mem hnew, List.map_append, List.map_cons, List.map_nil,
      ← List.append_assoc]
    exact List.perm_append_singleton _ _

/-- A name is bound for an object that is added. -/
theorem perm_names {name : String} {object : Object} {key : ObjectKey} (hn : u.names.get? name = none)
    (hu : u.names.keys.Perm (u.objects.map Prod.snd)) {os : List (ObjectKey × String)}
    (ho : os.Perm ((key, name) :: u.objects)) : (u.names.insert name object).keys.Perm (os.map Prod.snd) := by
  rw [Table.keys_insert_of_not_mem (Table.get?_eq_none_iff.1 hn)]
  exact (List.perm_append_singleton _ _).trans ((hu.cons name).trans (ho.map Prod.snd).symm)

theorem Orderly.interns (h : Orderly P u) (hstep : Interns P u u') : Orderly P u' := by
  have hd : Described P u' := Described.interns h.described hstep
  cases hstep with
  | @typedef ty members id family stripped composite lowered added =>
    have ho := objects_addTypeDef added
    obtain ⟨hk, hlt, hn, -, rfl⟩ := addTypeDef_gives added
    refine ⟨hd, h.literals, perm_names hn h.names ho, ?_, h.globals_le, h.functions_le⟩
    simp only [Table.size, Table.entries_insert_of_not_mem hk, List.length_append, List.length_singleton]
    exact hlt
  | @literal content id new added =>
    have ho := objects_internLiteral new added
    rcases internLiteral_gives added with ⟨-, rfl⟩ | ⟨-, hlt, hn, -, rfl⟩
    · exact h
    · refine ⟨hd, ?_, perm_names hn h.names ho, h.typedefs_le, ?_, h.functions_le⟩
      · intro c g hg
        simp only [Table.entries_insert_of_not_mem new, List.mem_append, List.mem_singleton, Prod.mk.injEq] at hg
        rcases hg with hg | ⟨rfl, rfl⟩
        · exact h.literals c g hg
        · rfl
      · simp only [Table.size, Table.entries_insert_of_not_mem new, List.length_append, List.length_singleton]
        exact hlt

/-- A literal is known by its content. -/
theorem Orderly.globalAt? (h : Orderly P u) {content : String} {id : GlobalId}
    (hk : u.globals.keys[id.index]? = some content) :
    u.globalAt? id = some ⟨literalName u.options.literalStem content, .elementary .string, content⟩ := by
  obtain ⟨g, hg, hmem⟩ := Table.entry_of_key hk
  rw [← h.literals content g hmem]
  exact hg

theorem Orderly.advances (h : Orderly P u) (hu : Advances P u u') : Orderly P u' := by
  induction hu with
  | refl => exact h
  | tail _ step ih => exact ih.interns step

theorem Orderly.addFunction (h : Orderly P u) {f : Function} {id : FunctionId} (hadd : Gives (addFunction f) u id u') :
    Orderly P u' := by
  have hd : Described P u' := by
    have ht := (addFunction_gives hadd).2.1
    intro i key t hi
    rw [ht] at hi
    obtain ⟨ty, hp, hs, hc, hk, hdesc⟩ := h.described hi
    exact ⟨ty, hp, hs, hc, hk, hdesc.name, hdesc.isUnion, hdesc.members.imp fun _ _ hm =>
      ⟨hm.1, lowerType_again hm.2 (ht ▸ List.prefix_refl _)⟩, hdesc.earlier⟩
  rcases addFunction_cases hadd with ⟨hmem, rfl⟩ | ⟨hmem, hlt, hn, rfl⟩
  · have hkeys := Table.keys_insert_of_mem hmem f
    refine ⟨hd, h.literals, ?_, h.typedefs_le, h.globals_le, ?_⟩
    · simp only [objects, hkeys]
      exact h.names
    · have hlen := congrArg List.length hkeys
      simp only [Table.keys, List.length_map] at hlen
      show (u.functions.insert f.name f).entries.length ≤ _
      rw [hlen]
      exact h.functions_le
  · refine ⟨hd, h.literals, perm_names hn h.names (objects_addFunction hmem hadd), h.typedefs_le, h.globals_le, ?_⟩
    simp only [Table.size, Table.entries_insert_of_not_mem hmem, List.length_append, List.length_singleton]
    exact hlt

/-! ## Matching typedefs -/

/-- What a type lowers to in two units matches. -/
theorem matches_of_lowerType {ty : Ty} {a b : LoweredType} {t' : CompilationUnit} (h : Gives (lowerType ty) u a u')
    (h' : Gives (lowerType ty) t b t') : a.Matches u' t' b := by
  rcases lowerType_key h with ⟨e, he, rfl⟩ | ⟨he, -, i, hi, rfl⟩
  · rcases lowerType_key h' with ⟨e', he', rfl⟩ | ⟨he', -⟩
    · obtain rfl := Option.some.inj (he.symm.trans he')
      exact .elementary e false
    · cases he.symm.trans he'
  · rcases lowerType_key h' with ⟨e', he', rfl⟩ | ⟨-, -, j, hj, rfl⟩
    · cases he.symm.trans he'
    · exact .composite false (Table.indexOf?_eq_some_iff.1 (typedefForKey?_eq_some.1 hi).1)
        (Table.indexOf?_eq_some_iff.1 (typedefForKey?_eq_some.1 hj).1)

theorem Lowers.matches {tys : List Ty} {members members' : List TypeMember} (h : u.Lowers tys members)
    (h' : t.Lowers tys members') :
    List.Forall₂ (fun m m' => m.name = m'.name ∧ m.ty.Matches u t m'.ty) members members' := by
  induction h generalizing members' with
  | nil =>
    cases h'
    exact .nil
  | cons hm _ ih =>
    cases h' with
    | cons hm' hrest => exact .cons ⟨hm.1.trans hm'.1.symm, matches_of_lowerType hm.2 hm'.2⟩ (ih hrest)

/-- Units over one family have matching typedefs under the same key. -/
theorem Orderly.alike (hP : Ty.Family P) (hu : Orderly P u) (ht : Orderly P t) : u.Alike t := by
  intro key d d' hd hd'
  obtain ⟨i, hi⟩ := List.mem_iff_getElem?.1 hd
  obtain ⟨j, hj⟩ := List.mem_iff_getElem?.1 hd'
  obtain ⟨ty, hp, -, -, hk, hdesc⟩ := hu.described hi
  obtain ⟨ty', hp', -, -, hk', hdesc'⟩ := ht.described hj
  obtain rfl := hP.key hp hp' (hk.trans hk'.symm)
  exact ⟨hdesc.name.trans hdesc'.name.symm, hdesc.isUnion.trans hdesc'.isUnion.symm,
    hdesc.members.matches hdesc'.members⟩

/-! ## Embedded units -/

/-- An orderly unit all of whose objects are objects of `F`. -/
structure Embedded (P : Ty → Prop) (F t : CompilationUnit) : Prop where
  orderly : Orderly P t
  options : t.options = F.options
  objects : t.objects ⊆ F.objects

theorem embedded_empty (P : Ty → Prop) (F : CompilationUnit) (name : String) :
    Embedded P F (empty name F.options) := ⟨orderly_empty name F.options, rfl, nofun⟩

namespace Embedded

theorem typedefs (h : Embedded P F t) : t.typedefs.keys ⊆ F.typedefs.keys := by
  intro key hkey
  obtain ⟨⟨k, d⟩, hd, rfl⟩ := List.mem_map.1 hkey
  obtain ⟨d', hd', -⟩ := typedef_mem_objects.1 (h.objects (typedef_mem_objects.2 ⟨d, hd, rfl⟩))
  exact List.mem_map.2 ⟨_, hd', rfl⟩

theorem globals (h : Embedded P F t) : t.globals.keys ⊆ F.globals.keys := by
  intro content hc
  obtain ⟨⟨c, g⟩, hg, rfl⟩ := List.mem_map.1 hc
  obtain ⟨g', hg', -⟩ := global_mem_objects.1 (h.objects (global_mem_objects.2 ⟨g, hg, rfl⟩))
  exact List.mem_map.2 ⟨_, hg', rfl⟩

theorem functions (h : Embedded P F t) : t.functions.keys ⊆ F.functions.keys := fun _ hn =>
  (function_mem_objects.1 (h.objects (function_mem_objects.2 ⟨hn, rfl⟩))).1

/-- **The name of an object of the larger unit is free** in an embedded unit without the object. -/
theorem fresh (h : Embedded P F t) (hF : Orderly P F) {key : ObjectKey} {name : String} (hin : (key, name) ∈ F.objects)
    (hout : ∀ n, (key, n) ∉ t.objects) : t.names.get? name = none := by
  rw [Table.get?_eq_none_iff, h.orderly.names.mem_iff]
  intro hmem
  obtain ⟨⟨key', _⟩, hobj, rfl⟩ := List.mem_map.1 hmem
  -- No two objects of the larger unit have the same name.
  have hnd : (F.objects.map Prod.snd).Nodup := hF.names.nodup_iff.1 F.names.nodup
  obtain rfl : key = key' := congrArg Prod.fst (List.inj_on_of_nodup_map hnd hin (h.objects hobj) rfl)
  exact hout _ hobj

theorem of_perm (h : Embedded P F t) {t' : CompilationUnit} {key : ObjectKey} {name : String} (ht' : Orderly P t')
    (ho : t'.options = t.options) (hp : t'.objects.Perm ((key, name) :: t.objects)) (hin : (key, name) ∈ F.objects) :
    Embedded P F t' := by
  refine ⟨ht', ho.trans h.options, fun o ho => ?_⟩
  rcases List.mem_cons.1 (hp.mem_iff.1 ho) with rfl | ho
  · exact hin
  · exact h.objects ho

end Embedded

/-! ## Additions to embedded units -/

theorem addTypeDef_run {key : String} {d : TypeDef} (hk : key ∉ u.typedefs.keys)
    (hlt : u.typedefs.size < Handle.limit) (hn : u.names.get? d.name = none) :
    Gives (addTypeDef key d) u ⟨u.typedefs.size⟩ { u with
      names := u.names.insert d.name (.typedef ⟨u.typedefs.size⟩)
      typedefs := u.typedefs.insert key d } := by
  simp only [addTypeDef, gives_get_bind, gives_ite, not_gives_fault, and_false, false_or, gives_handle_bind,
    gives_bind (x := bindName _ _), bindName_gives, gives_report_bind, gives_modify_bind, gives_pure]
  exact ⟨fun hc => hk (Table.contains_iff.1 hc), hlt, (), _, ⟨hn, rfl⟩, trivial, rfl⟩

theorem internLiteral_run {content : String} (hk : content ∉ u.globals.keys) (hlt : u.globals.size < Handle.limit)
    (hn : u.names.get? (literalName u.options.literalStem content) = none) :
    Gives (internLiteral content) u ⟨u.globals.size⟩ { u with
      names := u.names.insert (literalName u.options.literalStem content) (.global ⟨u.globals.size⟩)
      globals := u.globals.insert content
        ⟨literalName u.options.literalStem content, .elementary .string, content⟩ } := by
  have hi : u.globals.indexOf? content = none := by
    rw [← Option.not_isSome_iff_eq_none, Table.indexOf?_isSome_iff]
    exact hk
  simp only [internLiteral, gives_get_bind, hi, gives_handle_bind, gives_bind (x := bindName _ _), bindName_gives,
    gives_report_bind, gives_modify_bind, gives_pure]
  exact ⟨hlt, (), _, ⟨hn, rfl⟩, trivial, rfl⟩

theorem typedefForKey?_of_mem (hu : u.typedefs.size ≤ Handle.limit) {key : String} (hk : key ∈ u.typedefs.keys) :
    ∃ id, u.typedefForKey? key = some id := by
  obtain ⟨i, hi⟩ := Option.isSome_iff_exists.1 (Table.indexOf?_isSome_iff.2 hk)
  have hlt := (List.getElem?_eq_some_iff.1 (Table.indexOf?_eq_some_iff.1 hi)).1
  simp only [Table.keys, List.length_map] at hlt
  exact ⟨⟨i⟩, typedefForKey?_eq_some.2 ⟨hi, Nat.lt_of_lt_of_le hlt hu⟩⟩

/-- The typedefs that additions make are those of types of the family. -/
theorem Advances.typedef_keys (h : Advances P u u') {key : String} (hk : key ∈ u'.typedefs.keys) :
    key ∈ u.typedefs.keys ∨ ∃ ty, P ty ∧ ty.key = key := by
  induction h with
  | refl => exact Or.inl hk
  | tail _ step ih =>
    cases step with
    | @typedef ty members id family stripped composite lowered added =>
      obtain ⟨hnew, -, -, -, rfl⟩ := addTypeDef_gives added
      rw [Table.keys_insert_of_not_mem hnew] at hk
      rcases List.mem_append.1 hk with hk | hk
      · exact ih hk
      · exact Or.inr ⟨ty, family, (List.mem_singleton.1 hk).symm⟩
    | literal new added =>
      rcases internLiteral_gives added with ⟨-, rfl⟩ | ⟨-, -, -, -, rfl⟩
      · exact ih hk
      · exact ih hk

/-- Lowering its members does not make the typedef of a type. -/
theorem key_not_mem_of_members (hP : Ty.Family P) {ty : Ty} (hty : P ty) {members : List TypeMember}
    (h : Gives (ty.members.mapM lowerMember) u members u') (hk : ty.stripLeaf.key ∉ u.typedefs.keys) :
    ty.stripLeaf.key ∉ u'.typedefs.keys := by
  have hbelow := hP.below ty.stripLeaf.height
  have hadv : Advances _ u u' := mapM_lowerMember_keeps (fun _ => .refl) (fun h₁ h₂ => h₁.trans h₂)
    (fun m hm _ _ _ hl => advances_of_lowerType hbelow
      ⟨hP.members hty m hm, Ty.height_lt_of_mem_members (Ty.members_stripLeaf ty ▸ hm)⟩ hl) h
  intro hmem
  rcases hadv.typedef_keys hmem with hold | ⟨ty', ⟨hp, hlt⟩, hkey⟩
  · exact hk hold
  · obtain rfl := hP.key hp (hP.stripLeaf hty) hkey
    exact Nat.lt_irrefl _ hlt

namespace Embedded

theorem mapM_lowerMember {tys : List Ty}
    (step : ∀ ty ∈ tys, ∀ {t}, Embedded P F t → ∃ l t', Gives (CompilationUnit.lowerType ty) t l t' ∧ Embedded P F t')
    (h : Embedded P F t) : ∃ members t', Gives (tys.mapM lowerMember) t members t' ∧ Embedded P F t' := by
  induction tys generalizing t with
  | nil => exact ⟨[], t, gives_mapM_nil.2 ⟨rfl, rfl⟩, h⟩
  | cons ty tys ih =>
    obtain ⟨l, t₁, h₁, he₁⟩ := step ty (List.mem_cons_self ..) h
    obtain ⟨ms, t₂, h₂, he₂⟩ := ih (fun ty' hty' => step ty' (List.mem_cons_of_mem _ hty')) he₁
    refine ⟨⟨ty.leafName?, l⟩ :: ms, t₂, gives_mapM_cons.2 ⟨_, t₁, ms, ?_, h₂, rfl⟩, he₂⟩
    simp only [lowerMember, gives_bind, gives_pure]
    exact ⟨l, t₁, h₁, rfl, rfl⟩

/-- **A type that the larger unit has lowered can be lowered in an embedded one**, which stays embedded. -/
theorem lowerType (hP : Ty.Family P) (hF : Orderly P F) {ty : Ty} (hty : P ty) {l : LoweredType}
    (hl : Gives (CompilationUnit.lowerType ty) F l F) {t : CompilationUnit} (h : Embedded P F t) :
    ∃ l' t', Gives (CompilationUnit.lowerType ty) t l' t' ∧ Embedded P F t' := by
  induction ty using members_induction generalizing l t with
  | step ty ih =>
    rcases lowerType_key hl with ⟨e, he, -⟩ | ⟨he, hc, -⟩
    · refine ⟨.elementary e, t, ?_, h⟩
      rw [lowerType_eq, he]
      exact gives_pure.2 ⟨rfl, rfl⟩
    · by_cases hk : ty.stripLeaf.key ∈ t.typedefs.keys
      · obtain ⟨id, hid⟩ := typedefForKey?_of_mem h.orderly.typedefs_le hk
        refine ⟨.composite id, t, ?_, h⟩
        rw [lowerType_eq, he]
        simp only [hc, if_true, gives_get_bind, hid, gives_pure, and_self]
      · -- The members are in the larger unit, so they come first; then there is room for the typedef.
        obtain ⟨i, d, -, -, hent, hdesc⟩ := Described.of_lowerType hF.described hP hty hc hl
        have hmembers := Ty.members_stripLeaf ty ▸ hdesc.members
        obtain ⟨ms, t₁, hms, ht₁⟩ := h.mapM_lowerMember fun m hm {t} ht => by
          obtain ⟨k, hk, rfl⟩ := List.mem_iff_getElem.1 hm
          have hlm := (hmembers.get hk (hmembers.length_eq ▸ hk)).2
          exact ih _ hm (hP.members hty _ hm) hlm ht
        have hk₁ := key_not_mem_of_members hP hty hms hk
        have hobj : (.typedef ty.stripLeaf.key, (typedefOf ty ms).name) ∈ F.objects := by
          rw [typedefOf_stripLeaf]
          refine typedef_mem_objects.2 ⟨d, List.mem_of_getElem? hent, ?_⟩
          rw [hdesc.name, typedefOf, Ty.stripLeaf_stripLeaf]
        have hkF : ty.stripLeaf.key ∈ F.typedefs.keys := List.mem_map.2 ⟨_, List.mem_of_getElem? hent, rfl⟩
        have hlt : t₁.typedefs.size < Handle.limit :=
          Nat.lt_of_lt_of_le (Table.size_lt_of_subset ht₁.typedefs hkF hk₁) hF.typedefs_le
        have hfresh : t₁.names.get? (typedefOf ty ms).name = none := by
          refine ht₁.fresh hF hobj fun n hn => hk₁ ?_
          obtain ⟨d', hd', -⟩ := typedef_mem_objects.1 hn
          exact List.mem_map.2 ⟨_, hd', rfl⟩
        obtain ⟨id, t', hadd⟩ : ∃ id t', Gives (addTypeDef ty.stripLeaf.key (typedefOf ty ms)) t₁ id t' :=
          ⟨_, _, addTypeDef_run hk₁ hlt hfresh⟩
        have hrun : Gives (CompilationUnit.lowerType ty) t (.composite id) t' := by
          have hnone : t.typedefForKey? ty.stripLeaf.key = none := by
            cases hf : t.typedefForKey? ty.stripLeaf.key with
            | none => rfl
            | some i => exact absurd (Table.indexOf?_isSome_iff.1 (by rw [(typedefForKey?_eq_some.1 hf).1]; rfl)) hk
          rw [lowerType_eq, he]
          simp only [hc, if_true, gives_get_bind, hnone, gives_bind (x := List.mapM _ _),
            gives_bind (x := addTypeDef _ _), gives_pure]
          exact ⟨ms, t₁, hms, _, _, hadd, rfl, rfl⟩
        refine ⟨_, _, hrun, ht₁.of_perm ?_ (extends_of_addTypeDef hadd).options (objects_addTypeDef hadd) hobj⟩
        exact h.orderly.advances (advances_of_lowerType hP hty hrun)

theorem internLiteral (hF : Orderly P F) {content : String} (hc : content ∈ F.globals.keys) (h : Embedded P F t) :
    ∃ id t', Gives (CompilationUnit.internLiteral content) t id t' ∧ Embedded P F t' := by
  by_cases hk : content ∈ t.globals.keys
  · obtain ⟨i, hi⟩ := Option.isSome_iff_exists.1 (Table.indexOf?_isSome_iff.2 hk)
    have hlt := (List.getElem?_eq_some_iff.1 (Table.indexOf?_eq_some_iff.1 hi)).1
    simp only [Table.keys, List.length_map] at hlt
    refine ⟨⟨i⟩, t, ?_, h⟩
    simp only [CompilationUnit.internLiteral, gives_get_bind, hi, gives_handle, and_self, and_true]
    exact Nat.lt_of_lt_of_le hlt h.orderly.globals_le
  · have hobj : (.global content, literalName t.options.literalStem content) ∈ F.objects := by
      obtain ⟨⟨c, g⟩, hg, rfl⟩ := List.mem_map.1 hc
      rw [h.options]
      exact global_mem_objects.2 ⟨g, hg, by rw [hF.literals c g hg]⟩
    have hlt : t.globals.size < Handle.limit :=
      Nat.lt_of_lt_of_le (Table.size_lt_of_subset h.globals hc hk) hF.globals_le
    have hfresh : t.names.get? (literalName t.options.literalStem content) = none := by
      refine h.fresh hF hobj fun n hn => hk ?_
      obtain ⟨g, hg, -⟩ := global_mem_objects.1 hn
      exact List.mem_map.2 ⟨_, hg, rfl⟩
    have hrun := internLiteral_run hk hlt hfresh
    refine ⟨_, _, hrun, h.of_perm ?_ (extends_of_internLiteral hrun).options (objects_internLiteral hk hrun) hobj⟩
    exact h.orderly.interns (.literal hk hrun)

theorem addFunction (hF : Orderly P F) {f : Function} (hf : f.name ∈ F.functions.keys) (h : Embedded P F t) :
    ∃ id t', Gives (CompilationUnit.addFunction f) t id t' ∧ Embedded P F t' := by
  by_cases hk : f.name ∈ t.functions.keys
  · obtain ⟨i, hi⟩ := Option.isSome_iff_exists.1 (Table.indexOf?_isSome_iff.2 hk)
    have hlt := (List.getElem?_eq_some_iff.1 (Table.indexOf?_eq_some_iff.1 hi)).1
    simp only [Table.keys, List.length_map] at hlt
    have hrun : Gives (CompilationUnit.addFunction f) t ⟨i⟩ { t with functions := t.functions.insert f.name f } := by
      simp only [CompilationUnit.addFunction, gives_get_bind, hi, gives_bind (x := Action.set _), gives_set,
        gives_handle]
      exact ⟨(), _, rfl, Nat.lt_of_lt_of_le hlt h.orderly.functions_le, trivial, rfl⟩
    refine ⟨_, _, hrun, h.orderly.addFunction hrun, h.options, ?_⟩
    simp only [CompilationUnit.objects, Table.keys_insert_of_mem hk]
    exact h.objects
  · have hi : t.functions.indexOf? f.name = none := by
      rw [← Option.not_isSome_iff_eq_none, Table.indexOf?_isSome_iff]
      exact hk
    have hobj : (.function f.name, f.name) ∈ F.objects := function_mem_objects.2 ⟨hf, rfl⟩
    have hlt : t.functions.size < Handle.limit :=
      Nat.lt_of_lt_of_le (Table.size_lt_of_subset h.functions hf hk) hF.functions_le
    have hfresh : t.names.get? f.name = none :=
      h.fresh hF hobj fun n hn => hk (function_mem_objects.1 hn).1
    have hrun : Gives (CompilationUnit.addFunction f) t ⟨t.functions.size⟩ { t with
        names := t.names.insert f.name (.function ⟨t.functions.size⟩)
        functions := t.functions.insert f.name f } := by
      simp only [CompilationUnit.addFunction, gives_get_bind, hi, gives_handle_bind, gives_bind (x := bindName _ _),
        bindName_gives, gives_modify_bind, gives_pure]
      exact ⟨hlt, (), _, ⟨hfresh, rfl⟩, trivial, rfl⟩
    exact ⟨_, _, hrun, h.of_perm (h.orderly.addFunction hrun) rfl (objects_addFunction hk hrun) hobj⟩

end Embedded

end CompilationUnit

end BlockForm
