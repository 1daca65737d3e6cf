import BlockForm.Proofs.Atomicity
import BlockForm.Proofs.Embedding
import BlockForm.Proofs.Sizes

/-!
# BlockForm.Proofs.Catalogue — the names of a unit

Functions, typedefs and literals live in three tables, each under a key of its own kind, and share one table of names.
Whatever is added to a unit, and however much of it is refused, the name table holds each of these objects once, under
its name, and nothing else (`CompilationUnit.Catalogued`).  Generated names may coincide: the second object is then
refused, and a refusal leaves the unit as it was, except that a type whose typedef is refused leaves the typedefs of its
members behind.
-/

namespace BlockForm

open Action

/-! ## Tables after an insertion -/

namespace Table

variable {α : Type} {t : Table α} {key : String}

theorem at?_eq_some_iff {i : Nat} {a : α} : t.at? i = some a ↔ ∃ k, t.entries[i]? = some (k, a) := by
  simp only [at?, Option.map_eq_some_iff, Prod.exists]
  constructor
  · rintro ⟨k, b, h, rfl⟩
    exact ⟨k, h⟩
  · rintro ⟨k, h⟩
    exact ⟨k, a, h, rfl⟩

/-- A new entry comes last. -/
theorem at?_insert_of_not_mem {kind : HandleKind} (h : key ∉ t.keys) (value : α) (id : Handle kind) :
    (t.insert key value).at? id.index = if id = ⟨t.size⟩ then some value else t.at? id.index := by
  obtain ⟨i⟩ := id
  simp only [at?, entries_insert_of_not_mem h, Handle.mk.injEq]
  by_cases hi : i = t.size
  · subst hi
    rw [if_pos rfl]
    simp [size]
  · rw [if_neg hi]
    by_cases hlt : i < t.entries.length
    · rw [List.getElem?_append_left hlt]
    · have hgt : t.entries.length + 1 ≤ i := by
        have : i ≠ t.entries.length := hi
        omega
      rw [List.getElem?_eq_none (by simpa using hgt), List.getElem?_eq_none (by omega)]

theorem size_insert_of_not_mem (h : key ∉ t.keys) (value : α) : (t.insert key value).size = t.size + 1 := by
  simp [size, entries_insert_of_not_mem h]

theorem size_insert_of_mem (h : key ∈ t.keys) (value : α) : (t.insert key value).size = t.size := by
  simp [size, entries_insert_of_mem h, replaced]

/-- An entry of the table is the one put there or an old one. -/
theorem mem_entries_insert {value : α} {e : String × α} (h : e ∈ (t.insert key value).entries) :
    e = (key, value) ∨ e ∈ t.entries := by
  by_cases hk : key ∈ t.keys
  · rw [entries_insert_of_mem hk] at h
    obtain ⟨e', he', rfl⟩ := List.mem_map.1 h
    split
    · exact Or.inl rfl
    · exact Or.inr he'
  · rw [entries_insert_of_not_mem hk] at h
    rcases List.mem_append.1 h with h | h
    · exact Or.inr h
    · exact Or.inl (List.mem_singleton.1 h)

/-- Looking a key up finds its one entry. -/
theorem get?_eq_some_iff {a : α} : t.get? key = some a ↔ (key, a) ∈ t.entries := by
  have found : ∀ {b}, t.get? key = some b → (key, b) ∈ t.entries := by
    intro b h
    simp only [get?, Option.map_eq_some_iff] at h
    obtain ⟨⟨k, c⟩, hf, rfl⟩ := h
    have hk : k = key := by simpa using List.find?_some hf
    exact hk ▸ List.mem_of_find?_eq_some hf
  refine ⟨found, fun h => ?_⟩
  cases hb : t.get? key with
  | none => exact absurd (List.mem_map_of_mem h) (get?_eq_none_iff.1 hb)
  | some b =>
    obtain ⟨-, rfl⟩ := Prod.mk.inj (List.inj_on_of_nodup_map t.nodup (found hb) h rfl)
    rfl

theorem keys_getElem?_of_entry {i : Nat} {a : α} (h : t.entries[i]? = some (key, a)) : t.keys[i]? = some key := by
  simp [keys, h]

end Table

namespace CompilationUnit

variable {u u' : CompilationUnit}

/-! ## Objects and their names -/

/-- The name of an object of the unit; instructions, blocks and arguments are no objects of a unit. -/
def nameOf? (u : CompilationUnit) : Object → Option String
  | .function id => (u.functionAt? id).map Function.name
  | .typedef id => (u.typedefAt? id).map TypeDef.name
  | .global id => (u.globalAt? id).map Global.name
  | .instruction _ | .block _ | .argument _ => none

/-- What additions keep: the name table holds the objects under their names, functions and literals are under their own
keys, and every position is that of a handle. -/
structure Indexed (u : CompilationUnit) : Prop where
  names : ∀ {n o}, u.names.get? n = some o ↔ u.nameOf? o = some n
  functionKeys : ∀ {key f}, (key, f) ∈ u.functions.entries → f.name = key
  globalKeys : ∀ {key g}, (key, g) ∈ u.globals.entries → g.content = key
  functions_le : u.functions.size ≤ Handle.limit
  typedefs_le : u.typedefs.size ≤ Handle.limit
  globals_le : u.globals.size ≤ Handle.limit

theorem indexed_empty (name : String) (options : Options) : Indexed (empty name options) where
  names := by
    intro n o
    cases o <;> exact iff_of_false nofun nofun
  functionKeys := nofun
  globalKeys := nofun
  functions_le := Nat.zero_le _
  typedefs_le := Nat.zero_le _
  globals_le := Nat.zero_le _

/-- A new object under a free name. -/
theorem names_enter (h : ∀ {n o}, u.names.get? n = some o ↔ u.nameOf? o = some n) {name : String} {object : Object}
    (hfree : u.names.get? name = none) (hnew : u.nameOf? object = none)
    (hn : u'.names = u.names.insert name object)
    (ho : ∀ o, u'.nameOf? o = if o = object then some name else u.nameOf? o) :
    ∀ {n o}, u'.names.get? n = some o ↔ u'.nameOf? o = some n := by
  intro n o
  rw [hn, Table.get?_insert, ho]
  by_cases hobj : o = object
  · subst hobj
    rw [if_pos rfl]
    by_cases hname : n = name
    · rw [if_pos hname, hname]
      exact iff_of_true rfl rfl
    · rw [if_neg hname, h, hnew]
      exact iff_of_false nofun fun he => hname (Option.some.inj he).symm
  · rw [if_neg hobj]
    by_cases hname : n = name
    · subst hname
      rw [if_pos rfl, ← h, hfree]
      exact iff_of_false (fun he => hobj (Option.some.inj he).symm) nofun
    · rw [if_neg hname, h]

/-- The name of a function is its key. -/
theorem nameOf?_function (h : ∀ {key f}, (key, f) ∈ u.functions.entries → f.name = key) (id : FunctionId) :
    u.nameOf? (.function id) = u.functions.keys[id.index]? := by
  simp only [nameOf?, functionAt?, Table.at?, Table.keys, List.getElem?_map, Option.map_map]
  cases he : u.functions.entries[id.index]? with
  | none => rfl
  | some e =>
    have hmem : (e.1, e.2) ∈ u.functions.entries := List.mem_of_getElem? he
    exact congrArg some (h hmem)

/-! ## Additions that succeed -/

theorem Indexed.addTypeDef (h : u.Indexed) {key : String} {t : TypeDef} {id : TypeDefId}
    (hadd : Gives (addTypeDef key t) u id u') : u'.Indexed := by
  obtain ⟨hk, hlt, hfree, rfl, rfl⟩ := addTypeDef_gives hadd
  have hnew : u.nameOf? (.typedef ⟨u.typedefs.size⟩) = none := by
    simp [nameOf?, typedefAt?, Table.at?, Table.size]
  refine ⟨names_enter h.names hfree hnew rfl ?_, h.functionKeys, h.globalKeys, h.functions_le, ?_, h.globals_le⟩
  · intro o
    cases o with
    | typedef id =>
      simp only [nameOf?, typedefAt?, Table.at?_insert_of_not_mem hk, Object.typedef.injEq]
      split <;> rfl
    | _ => rfl
  · show (u.typedefs.insert key t).size ≤ Handle.limit
    rw [Table.size_insert_of_not_mem hk]
    omega

theorem Indexed.internLiteral (h : u.Indexed) {content : String} {id : GlobalId}
    (hadd : Gives (internLiteral content) u id u') : u'.Indexed := by
  rcases internLiteral_gives hadd with ⟨-, rfl⟩ | ⟨hk, hlt, hfree, rfl, rfl⟩
  · exact h
  have hnew : u.nameOf? (.global ⟨u.globals.size⟩) = none := by
    simp [nameOf?, globalAt?, Table.at?, Table.size]
  refine ⟨names_enter h.names hfree hnew rfl ?_, h.functionKeys, ?_, h.functions_le, h.typedefs_le, ?_⟩
  · intro o
    cases o with
    | global id =>
      simp only [nameOf?, globalAt?, Table.at?_insert_of_not_mem hk, Object.global.injEq]
      split <;> rfl
    | _ => rfl
  · intro key g hg
    rcases Table.mem_entries_insert hg with heq | hg
    · obtain ⟨rfl, rfl⟩ := Prod.mk.inj heq
      rfl
    · exact h.globalKeys hg
  · show (u.globals.insert content _).size ≤ Handle.limit
    rw [Table.size_insert_of_not_mem hk]
    omega

/-- The handle given for a function is that of its name. -/
theorem addFunction_handle {f : Function} {id : FunctionId} (h : Gives (addFunction f) u id u') :
    u'.functions.indexOf? f.name = some id.index := by
  rw [(addFunction_gives h).1]
  simp only [CompilationUnit.addFunction, gives_get_bind] at h
  cases hi : u.functions.indexOf? f.name with
  | some i =>
    rw [hi] at h
    simp only [gives_bind, gives_set, gives_handle] at h
    obtain ⟨_, _, rfl, -, rfl, rfl⟩ := h
    have hmem : f.name ∈ u.functions.keys := Table.indexOf?_isSome_iff.1 (by rw [hi]; rfl)
    rw [Table.indexOf?, Table.keys_insert_of_mem hmem]
    exact hi
  | none =>
    rw [hi] at h
    simp only [gives_handle_bind, gives_bind (x := bindName _ _), bindName_gives, gives_modify_bind, gives_pure] at h
    obtain ⟨-, _, _, ⟨-, rfl⟩, rfl, rfl⟩ := h
    have hmem : f.name ∉ u.functions.keys := fun hm => by
      have := Table.indexOf?_isSome_iff.2 hm
      rw [hi] at this
      cases this
    exact Table.indexOf?_insert_self hmem f

theorem Indexed.addFunction (h : u.Indexed) {f : Function} {id : FunctionId} (hadd : Gives (addFunction f) u id u') :
    u'.Indexed := by
  have hkeys : ∀ {key g}, (key, g) ∈ u'.functions.entries → g.name = key := by
    intro key g hg
    rw [(addFunction_gives hadd).1] at hg
    rcases Table.mem_entries_insert hg with heq | hg
    · obtain ⟨rfl, rfl⟩ := Prod.mk.inj heq
      rfl
    · exact h.functionKeys hg
  rcases addFunction_cases hadd with ⟨hmem, rfl⟩ | ⟨hmem, hlt, hfree, rfl⟩
  · -- a function in the place of another has the same name
    have hsame : ∀ o, nameOf? { u with functions := u.functions.insert f.name f } o = u.nameOf? o := by
      intro o
      cases o with
      | function id => rw [nameOf?_function hkeys, nameOf?_function h.functionKeys, Table.keys_insert_of_mem hmem]
      | _ => rfl
    refine ⟨fun {n o} => by rw [hsame]; exact h.names, hkeys, h.globalKeys, ?_, h.typedefs_le, h.globals_le⟩
    show (u.functions.insert f.name f).size ≤ Handle.limit
    rw [Table.size_insert_of_mem hmem]
    exact h.functions_le
  · have hid : id = ⟨u.functions.size⟩ := by
      have := addFunction_handle hadd
      rw [show Table.indexOf? _ f.name = _ from Table.indexOf?_insert_self hmem f] at this
      rw [Option.some.inj this]
    subst hid
    have hnew : u.nameOf? (.function ⟨u.functions.size⟩) = none := by
      simp [nameOf?, functionAt?, Table.at?, Table.size]
    refine ⟨names_enter h.names hfree hnew rfl ?_, hkeys, h.globalKeys, ?_, h.typedefs_le, h.globals_le⟩
    · intro o
      cases o with
      | function id =>
        simp only [nameOf?, functionAt?, Table.at?_insert_of_not_mem hmem, Object.function.injEq]
        split <;> rfl
      | _ => rfl
    · show (u.functions.insert f.name f).size ≤ Handle.limit
      rw [Table.size_insert_of_not_mem hmem]
      omega

/-! ## Additions that are refused -/

theorem bindName_restores (name : String) (object : Object) : (bindName name object u).Restores u := by
  unfold bindName NameTable.bind
  cases u.names.get? name with
  | some o => exact fun _ _ => rfl
  | none => exact nofun

theorem addTypeDef_restores (key : String) (t : TypeDef) : (addTypeDef key t u).Restores u := by
  refine restores_get_bind ?_
  split
  · exact restores_fault _
  · exact restores_handle_bind fun _ => restores_bind (bindName_restores _ _) fun _ _ _ => nofun

theorem internLiteral_restores (content : String) : (internLiteral content u).Restores u := by
  refine restores_get_bind ?_
  cases u.globals.indexOf? content with
  | some i =>
    show (Action.handle .global i u).Restores u
    unfold Action.handle
    split
    · exact restores_pure _
    · exact restores_fail _
  | none => exact restores_handle_bind fun _ => restores_bind (bindName_restores _ _) fun _ _ _ => nofun

/-- A function that is there already has a handle, so that putting another in its place cannot fail. -/
theorem addFunction_restores (hu : u.functions.size ≤ Handle.limit) (f : Function) : (addFunction f u).Restores u := by
  refine restores_get_bind ?_
  cases hi : u.functions.indexOf? f.name with
  | some i =>
    have hlt : i < u.functions.size := by
      have := (List.getElem?_eq_some_iff.1 (Table.indexOf?_eq_some_iff.1 hi)).1
      simpa [Table.keys, Table.size] using this
    have hroom : i < Handle.limit := Nat.lt_of_lt_of_le hlt hu
    refine restores_bind ?_ fun _ u' _ => restores_of_gives (gives_handle.2 ⟨hroom, rfl, rfl⟩) u
    rintro e ⟨⟩
  | none =>
    refine restores_handle_bind fun _ => restores_bind (bindName_restores _ _) fun _ u' _ => ?_
    rintro e ⟨⟩

/-- Lowering a type appends typedefs and changes nothing else, whether it succeeds or not. -/
theorem lowerType_appends (ty : Ty) (u : CompilationUnit) :
    u.Extends (lowerType ty u).state ∧ (lowerType ty u).state.globals = u.globals := by
  refine lowerType_keeps (P := fun _ => True) (R := fun u u' => u.Extends u' ∧ u'.globals = u.globals)
    (fun u => ⟨.refl u, rfl⟩) (fun h₁ h₂ => ⟨h₁.1.trans h₂.1, h₂.2.trans h₁.2⟩) (fun _ _ _ => trivial) ?_ trivial u
  intro ty ms u u' id _ _ _ hadd
  refine ⟨extends_of_addTypeDef hadd, ?_⟩
  obtain ⟨-, -, -, -, rfl⟩ := addTypeDef_gives hadd
  rfl

theorem Indexed.lowerType (h : u.Indexed) (ty : Ty) : (lowerType ty u).state.Indexed :=
  lowerType_keeps (P := fun _ => True) (R := fun u u' => u.Indexed → u'.Indexed) (fun _ h => h)
    (fun h₁ h₂ h => h₂ (h₁ h)) (fun _ _ _ => trivial) (fun _ _ _ hadd h => h.addTypeDef hadd) trivial u h

/-! ## Any number of additions -/

/-- An addition to a unit, which may be refused. -/
inductive Addition where
  | function (f : Function)
  | typedef (key : String) (t : TypeDef)
  | literal (content : String)
  | type (ty : Ty)

namespace Addition

/-- What the unit does on an addition. -/
def perform : Addition → Interning Unit
  | function f => do let _ ← addFunction f
  | typedef key t => do let _ ← addTypeDef key t
  | literal content => do let _ ← internLiteral content
  | type ty => do let _ ← CompilationUnit.lowerType ty

/-- Additions one after another, the refused ones included. -/
def performAll : List Addition → Interning Unit
  | [] => pure ()
  | a :: as => do
    (fun u => { a.perform u with result := .ok () } : Interning Unit)
    performAll as

/-- What may be left of `u` when the addition is refused: all of it and nothing else, but for the typedefs of the
members of a type. -/
def Leaves (u u' : CompilationUnit) : Addition → Prop
  | function _ | typedef _ _ | literal _ => u' = u
  | type _ => u.Extends u' ∧ u'.globals = u.globals

end Addition

theorem Indexed.perform (h : u.Indexed) (a : Addition) : (a.perform u).state.Indexed := by
  cases a with
  | function f =>
    rw [Addition.perform, state_ignore]
    rcases state_of_restores (addFunction_restores h.functions_le f) with heq | ⟨id, hadd⟩
    · rw [heq]
      exact h
    · exact h.addFunction hadd
  | typedef key t =>
    rw [Addition.perform, state_ignore]
    rcases state_of_restores (addTypeDef_restores key t) with heq | ⟨id, hadd⟩
    · rw [heq]
      exact h
    · exact h.addTypeDef hadd
  | literal content =>
    rw [Addition.perform, state_ignore]
    rcases state_of_restores (internLiteral_restores content) with heq | ⟨id, hadd⟩
    · rw [heq]
      exact h
    · exact h.internLiteral hadd
  | type ty =>
    rw [Addition.perform, state_ignore]
    exact h.lowerType ty

theorem Indexed.performAll (as : List Addition) :
    ∀ {u : CompilationUnit}, u.Indexed → (Addition.performAll as u).state.Indexed := by
  induction as with
  | nil => exact fun h => h
  | cons a as ih => exact fun h => ih (h.perform a)

/-- What a refused addition leaves. -/
theorem Indexed.leaves (h : u.Indexed) (a : Addition) {e : Error} (he : (a.perform u).result = .error e) :
    a.Leaves u (a.perform u).state := by
  cases a with
  | function f => exact restores_ignore (addFunction_restores h.functions_le f) e he
  | typedef key t => exact restores_ignore (addTypeDef_restores key t) e he
  | literal content => exact restores_ignore (internLiteral_restores content) e he
  | type ty =>
    rw [Addition.perform, state_ignore]
    exact lowerType_appends ty u

/-! ## The catalogue -/

/-- The tables of the unit and its name table tell the same story. -/
structure Catalogued (u : CompilationUnit) : Prop where
  /-- The names are those of the functions, typedefs and literals, each leading to its own object. -/
  names : ∀ {n o}, u.names.get? n = some o ↔ u.nameOf? o = some n
  /-- No two objects have the same name. -/
  distinct : ∀ {n o p}, u.nameOf? o = some n → u.nameOf? p = some n → o = p
  /-- Looking up by name and by handle finds the same objects. -/
  function : ∀ {n f}, u.function? n = some f ↔ ∃ id, u.functionAt? id = some f ∧ f.name = n
  typedef : ∀ {n t}, u.typedef? n = some t ↔ ∃ id, u.typedefAt? id = some t ∧ t.name = n
  /-- Every typedef has its key, and every literal its content. -/
  key : ∀ {id t}, u.typedefAt? id = some t ↔ ∃ key, u.typedefForKey? key = some id ∧ (key, t) ∈ u.typedefs.entries
  literal : ∀ {c g}, u.global? c = some g ↔ ∃ id, u.globalAt? id = some g ∧ g.content = c
  /-- The contents that can be interned without a change are those of the literals, and give their handles. -/
  interned : ∀ {c id}, Gives (internLiteral c) u id u ↔ ∃ g, u.globalAt? id = some g ∧ g.content = c
  /-- A literal is known by its handle, by its name and by its content alike. -/
  content : ∀ {i j g h}, u.globalAt? i = some g → u.globalAt? j = some h →
    (i = j ↔ g.content = h.content) ∧ (g.name = h.name ↔ g.content = h.content)

theorem Indexed.global_entry (h : u.Indexed) {id : GlobalId} {g : Global} (hg : u.globalAt? id = some g) :
    u.globals.entries[id.index]? = some (g.content, g) := by
  obtain ⟨key, hkey⟩ := Table.at?_eq_some_iff.1 hg
  rw [hkey, h.globalKeys (List.mem_of_getElem? hkey)]

theorem Indexed.content_inj (h : u.Indexed) {i j : GlobalId} {g g' : Global} (hg : u.globalAt? i = some g)
    (hg' : u.globalAt? j = some g') : i = j ↔ g.content = g'.content := by
  constructor
  · rintro rfl
    rw [Option.some.inj (hg.symm.trans hg')]
  · intro hc
    have hi := Table.keys_getElem?_of_entry (h.global_entry hg)
    have hj := Table.keys_getElem?_of_entry (h.global_entry hg')
    rw [← hc] at hj
    exact congrArg Handle.mk (Table.index_unique hi hj)

theorem Indexed.interned_iff (h : u.Indexed) {c : String} {id : GlobalId} :
    Gives (CompilationUnit.internLiteral c) u id u ↔ ∃ g, u.globalAt? id = some g ∧ g.content = c := by
  constructor
  · intro hgives
    obtain ⟨g, hg, hmem⟩ := Table.entry_of_key (internLiteral_key hgives)
    exact ⟨g, hg, h.globalKeys hmem⟩
  · rintro ⟨g, hg, rfl⟩
    have hkey := Table.keys_getElem?_of_entry (h.global_entry hg)
    have hlt : id.index < Handle.limit := by
      have hsize : id.index < u.globals.size := (List.getElem?_eq_some_iff.1 (h.global_entry hg)).1
      exact Nat.lt_of_lt_of_le hsize h.globals_le
    simp only [CompilationUnit.internLiteral, gives_get_bind, Table.indexOf?_eq_some_iff.2 hkey, gives_handle]
    exact ⟨hlt, trivial, trivial⟩

theorem Indexed.function_iff (h : u.Indexed) {n : String} {f : Function} :
    u.function? n = some f ↔ ∃ id, u.functionAt? id = some f ∧ f.name = n := by
  rw [function?, Table.get?_eq_some_iff, List.mem_iff_getElem?]
  constructor
  · rintro ⟨i, hi⟩
    exact ⟨⟨i⟩, Table.at?_eq_some_iff.2 ⟨n, hi⟩, h.functionKeys (List.mem_of_getElem? hi)⟩
  · rintro ⟨id, hf, rfl⟩
    obtain ⟨key, hkey⟩ := Table.at?_eq_some_iff.1 hf
    rw [h.functionKeys (List.mem_of_getElem? hkey)]
    exact ⟨id.index, hkey⟩

theorem Indexed.typedef_iff (h : u.Indexed) {n : String} {t : TypeDef} :
    u.typedef? n = some t ↔ ∃ id, u.typedefAt? id = some t ∧ t.name = n := by
  constructor
  · intro ht
    unfold typedef? at ht
    split at ht
    · next id hid =>
      have hname := h.names.1 hid
      rw [nameOf?, ht] at hname
      exact ⟨id, ht, Option.some.inj hname⟩
    · cases ht
  · rintro ⟨id, ht, rfl⟩
    have hname : u.names.get? t.name = some (.typedef id) := h.names.2 (by rw [nameOf?, ht]; rfl)
    rw [typedef?, hname]
    exact ht

theorem Indexed.key_iff (h : u.Indexed) {id : TypeDefId} {t : TypeDef} :
    u.typedefAt? id = some t ↔ ∃ key, u.typedefForKey? key = some id ∧ (key, t) ∈ u.typedefs.entries := by
  constructor
  · intro ht
    obtain ⟨key, hkey⟩ := Table.at?_eq_some_iff.1 ht
    have hlt : id.index < u.typedefs.size := (List.getElem?_eq_some_iff.1 hkey).1
    refine ⟨key, typedefForKey?_eq_some.2 ⟨?_, Nat.lt_of_lt_of_le hlt h.typedefs_le⟩, List.mem_of_getElem? hkey⟩
    exact Table.indexOf?_eq_some_iff.2 (Table.keys_getElem?_of_entry hkey)
  · rintro ⟨key, hkey, hmem⟩
    obtain ⟨t', hent, hat⟩ := typedefAt?_of_key hkey
    obtain ⟨-, rfl⟩ := Prod.mk.inj (List.inj_on_of_nodup_map u.typedefs.nodup hmem (List.mem_of_getElem? hent) rfl)
    exact hat

theorem Indexed.literal_iff (h : u.Indexed) {c : String} {g : Global} :
    u.global? c = some g ↔ ∃ id, u.globalAt? id = some g ∧ g.content = c := by
  rw [global?, Table.get?_eq_some_iff, List.mem_iff_getElem?]
  constructor
  · rintro ⟨i, hi⟩
    exact ⟨⟨i⟩, Table.at?_eq_some_iff.2 ⟨c, hi⟩, h.globalKeys (List.mem_of_getElem? hi)⟩
  · rintro ⟨id, hg, rfl⟩
    exact ⟨id.index, h.global_entry hg⟩

theorem Indexed.distinct (h : u.Indexed) {n : String} {o p : Object} (ho : u.nameOf? o = some n)
    (hp : u.nameOf? p = some n) : o = p :=
  Option.some.inj ((h.names.2 ho).symm.trans (h.names.2 hp))

theorem Indexed.catalogued (h : u.Indexed) : u.Catalogued where
  names := h.names
  distinct := h.distinct
  function := h.function_iff
  typedef := h.typedef_iff
  key := h.key_iff
  literal := h.literal_iff
  interned := h.interned_iff
  content := by
    intro i j g g' hg hg'
    refine ⟨h.content_inj hg hg', ?_⟩
    rw [← h.content_inj hg hg']
    constructor
    · intro hname
      have hi : u.nameOf? (.global i) = some g.name := by rw [nameOf?, hg]; rfl
      have hj : u.nameOf? (.global j) = some g.name := by rw [nameOf?, hg', hname]; rfl
      exact Object.global.inj (h.distinct hi hj)
    · rintro rfl
      rw [Option.some.inj (hg.symm.trans hg')]

/-- **The names of a unit are those of its objects**, whatever was added to it and whatever was refused; and a refused
addition leaves the unit as it was, or with more typedefs if it was a type. -/
theorem performAll_catalogued (name : String) (options : Options) (additions : List Addition) :
    let u := (Addition.performAll additions (empty name options)).state
    u.Catalogued ∧ ∀ (a : Addition) (e : Error), (a.perform u).result = .error e → a.Leaves u (a.perform u).state := by
  intro u
  have hu : u.Indexed := (indexed_empty name options).performAll additions
  exact ⟨hu.catalogued, fun a e he => hu.leaves a he⟩

end CompilationUnit

namespace Sample

open CompilationUnit

/-- A function called like a type, a literal, and a function called like the literal, which is refused. -/
def clashes : List Addition :=
  [.function (.declaration "entry" [] .nil), .literal "a", .function (.declaration (literalName "gstr" "a") [] .nil)]

/-- The type `entry` is refused after that, and leaves the typedef of its member `tag` behind. -/
theorem clashes_catalogued :
    let u := (Addition.performAll clashes (.empty "sample" {})).state
    let u' := ((Addition.type entry).perform u).state
    (u.functions.size = 1 ∧ u.globals.size = 1 ∧ u.names.size = 2) ∧ u.Catalogued ∧
      (((Addition.type entry).perform u).result.isOk = false ∧ u'.typedefs.size = 1 ∧ u'.names.size = 3) ∧
      u.Extends u' ∧ u'.globals = u.globals := by
  intro u u'
  have hrefused : ((Addition.type entry).perform u).result.isOk = false := by decide +kernel
  obtain ⟨hu, hleaves⟩ := performAll_catalogued "sample" {} clashes
  refine ⟨by decide +kernel, hu, ⟨hrefused, by decide +kernel, by decide +kernel⟩, ?_⟩
  cases hr : ((Addition.type entry).perform u).result with
  | ok a => simp [hr, Except.isOk, Except.toBool] at hrefused
  | error e => exact hleaves (.type entry) e hr

end Sample

end BlockForm
