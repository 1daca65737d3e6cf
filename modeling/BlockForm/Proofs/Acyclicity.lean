import BlockForm.Proofs.Deduplication
import BlockForm.Proofs.Primitives
import BlockForm.Proofs.Soundness

/-!
# BlockForm.Proofs.Acyclicity — typedefs refer to earlier ones only

The size of a type is found by a recursion through the table of typedefs that keeps no account of where it has been.
It ends because the members of a typedef are lowered before its place in the table is taken: whatever surface code adds
to a unit, and wherever it fails, a member of typedef `i` is no address and refers to a typedef before `i`
(`CompilationUnit.Layered`).  `CompilationUnit.Measures` is that recursion as it stands, without a bound on its depth.

All that lowering does to a unit is to lower types, add functions and intern literals (`Additive`), so this holds at
every moment of it.
-/

namespace BlockForm

open Action

namespace CompilationUnit

variable {u u' v : CompilationUnit} {α β : Type}

/-! ## Units reached by surface code -/

/-- Surface code adds typedefs only by lowering types. -/
def Addition.isSurface : Addition → Bool
  | .typedef _ _ => false
  | .function _ | .literal _ | .type _ => true

/-- `u'` is `u` after any number of additions by surface code, refused ones included. -/
def Reaches (u u' : CompilationUnit) : Prop :=
  ∃ additions : List Addition, (∀ a ∈ additions, a.isSurface = true) ∧ (Addition.performAll additions u).state = u'

theorem performAll_append_state (as bs : List Addition) : ∀ u : CompilationUnit,
    (Addition.performAll (as ++ bs) u).state = (Addition.performAll bs (Addition.performAll as u).state).state := by
  induction as with
  | nil => exact fun _ => rfl
  | cons a as ih => exact fun u => ih (a.perform u).state

namespace Reaches

theorem refl (u : CompilationUnit) : Reaches u u := ⟨[], nofun, rfl⟩

theorem trans (h₁ : Reaches u u') (h₂ : Reaches u' v) : Reaches u v := by
  obtain ⟨as, has, rfl⟩ := h₁
  obtain ⟨bs, hbs, rfl⟩ := h₂
  refine ⟨as ++ bs, ?_, performAll_append_state as bs u⟩
  intro a ha
  rcases List.mem_append.1 ha with ha | ha
  · exact has a ha
  · exact hbs a ha

theorem single (a : Addition) (ha : a.isSurface = true) (u : CompilationUnit) : Reaches u (a.perform u).state := by
  refine ⟨[a], ?_, rfl⟩
  intro b hb
  rw [List.mem_singleton.1 hb]
  exact ha

/-- What every addition of surface code keeps, all of them keep. -/
theorem keeps {P : CompilationUnit → Prop}
    (step : ∀ (a : Addition) (u : CompilationUnit), a.isSurface = true → P u → P (a.perform u).state)
    (h : Reaches u u') (hu : P u) : P u' := by
  obtain ⟨as, has, rfl⟩ := h
  induction as generalizing u with
  | nil => exact hu
  | cons a as ih =>
    rw [List.forall_mem_cons] at has
    exact ih (step a u has.1 hu) has.2

end Reaches

/-! ## Steps of lowering -/

/-- The step changes a unit by additions of surface code only, whether it succeeds or not. -/
def Additive (x : Interning α) : Prop := ∀ u, Reaches u (x u).state

theorem additive_of_state {x : Interning α} (h : ∀ u, (x u).state = u) : Additive x := fun u => by
  rw [h u]
  exact .refl u

theorem Additive.bind {x : Interning α} {k : α → Interning β} (hx : Additive x) (hk : ∀ a, Additive (k a)) :
    Additive (x >>= k) := fun u =>
  state_bind (R := Reaches u) (hx u) fun a _ => (hx u).trans (hk a _)

theorem additive_pure (a : α) : Additive (pure a) := additive_of_state fun _ => rfl

theorem additive_get_bind {k : CompilationUnit → Interning β} (hk : ∀ u, Additive (k u)) :
    Additive (Action.get >>= k) := .bind (additive_of_state fun _ => rfl) hk

theorem additive_report (e : Event) : Additive (Action.report e) := additive_of_state fun _ => rfl

theorem additive_fault (f : Fault) : Additive (Action.fault f : Interning α) := additive_of_state fun _ => rfl

theorem additive_lowerType (ty : Ty) : Additive (lowerType ty) := fun u => by
  have h := Reaches.single (.type ty) rfl u
  rw [Addition.perform, state_ignore] at h
  exact h

theorem additive_internLiteral (content : String) : Additive (internLiteral content) := fun u => by
  have h := Reaches.single (.literal content) rfl u
  rw [Addition.perform, state_ignore] at h
  exact h

theorem additive_addFunction (f : Function) : Additive (addFunction f) := fun u => by
  have h := Reaches.single (.function f) rfl u
  rw [Addition.perform, state_ignore] at h
  exact h

end CompilationUnit

namespace Lowering

open CompilationUnit

/-- What lowering a type and interning a literal keep of a unit, whether they succeed or not, a step made of the
primitive ones keeps. -/
theorem Made.keepsUnit {R : CompilationUnit → Prop}
    (hty : ∀ ty u, R u → R (CompilationUnit.lowerType ty u).state)
    (hliteral : ∀ content u, R u → R (CompilationUnit.internLiteral content u).state) {α : Type} {x : Lowering α}
    {P : α → Prop} (h : Made (fun _ => True) x P) :
    ∀ s, (R s.unit → R (x s).state.unit) ∧ ∀ {a t}, x.Gives s a t → P a := by
  induction h with
  | pure h =>
    intro s
    refine ⟨id, fun hgives => ?_⟩
    obtain ⟨rfl, -⟩ := gives_pure.1 hgives
    exact h
  | @bind α β x k P Q _ _ ihx ihk =>
    intro s
    obtain ⟨hkeep, hpost⟩ := ihx s
    refine ⟨fun hs => ?_, fun hgives => ?_⟩
    · exact state_bind (R := fun t : LoweringState => R t.unit) (hkeep hs) fun a ha => (ihk a (hpost ha) _).1 (hkeep hs)
    · obtain ⟨a, t, ha, hk⟩ := gives_bind.1 hgives
      exact (ihk a (hpost ha) t).2 hk
  | inScope _ ih =>
    intro s
    obtain ⟨hkeep, hpost⟩ := ih { s with scopes := [] :: s.scopes }
    refine ⟨hkeep, fun hgives => ?_⟩
    obtain ⟨t, ht, -⟩ := gives_inScope.1 hgives
    exact hpost ht
  | lowerType ty => exact fun s => ⟨hty ty s.unit, fun _ => trivial⟩
  | lowerLiteral content =>
    intro s
    refine ⟨fun hs => ?_, fun _ => trivial⟩
    have hintern := hliteral content s.unit hs
    refine state_bind (R := fun t : LoweringState => R t.unit) hintern fun id hid => ?_
    refine state_bind (R := fun t : LoweringState => R t.unit) hintern fun t ht => ?_
    obtain ⟨rfl, -⟩ := gives_get.1 ht
    -- looking the literal up leaves the unit alone, whether it is found or not
    cases CompilationUnit.globalAt? _ id with
    | none => exact hintern
    | some l => exact hintern
  | startBlock b =>
    intro s
    exact ⟨fun hs => state_bind (R := fun t : LoweringState => R t.unit) hs fun _ _ => hs, fun _ => trivial⟩
  | define hs name =>
    intro s
    obtain ⟨u, f, current, endBlock, _ | ⟨scope, rest⟩⟩ := s
    · exact ⟨id, fun _ => trivial⟩
    · exact ⟨id, fun _ => trivial⟩
  | slotOf name =>
    intro s
    refine ⟨fun hs => ?_, fun _ => trivial⟩
    refine state_bind (R := fun t : LoweringState => R t.unit) hs fun t ht => ?_
    obtain ⟨rfl, -⟩ := gives_get.1 ht
    cases s.scopes.findSome? (List.lookup name) with
    | none => exact hs
    | some v => exact hs
  | fail | fault => exact fun s => ⟨id, fun hgives => by simp at hgives⟩
  | get => exact fun s => ⟨id, fun _ _ _ => trivial⟩
  | _ => exact fun s => ⟨id, fun _ => trivial⟩

/-- **A step made of the primitive ones changes the unit by additions of surface code only**, whether it succeeds or
not. -/
theorem Made.reaches {α : Type} {x : Lowering α} {P : α → Prop} (h : Made (fun _ => True) x P) (s : LoweringState) :
    Reaches s.unit (x s).state.unit :=
  (h.keepsUnit (fun ty u hu => hu.trans (additive_lowerType ty u))
    (fun content u hu => hu.trans (additive_internLiteral content u)) s).1 (.refl s.unit)

theorem reaches_lowerExpr (e : Expr) (s : LoweringState) : Reaches s.unit (lowerExpr e s).state.unit :=
  (Made.lowerExpr e).reaches s

theorem reaches_lowerStatement (st : Statement) (s : LoweringState) : Reaches s.unit (lowerStatement st s).state.unit :=
  (Made.lowerStatement st).reaches s

theorem reaches_lowerFunctionBody (item : FunctionItem) (s : LoweringState) :
    Reaches s.unit (lowerFunctionBody item s).state.unit :=
  (Made.lowerFunctionBody (fun _ => trivial) item).reaches s

end Lowering

namespace CompilationUnit

variable {u u' v : CompilationUnit}

/-! ## Passes -/

theorem additive_lowerParams (params : List Param) : Additive (lowerParams params) := by
  induction params with
  | nil => exact additive_pure _
  | cons param params ih => exact (additive_lowerType _).bind fun _ => ih.bind fun _ => additive_pure _

theorem additive_lowerSignature (s : Signature) : Additive (lowerSignature s) :=
  (additive_lowerParams _).bind fun _ => (additive_lowerType _).bind fun _ => additive_pure _

theorem additive_declareFunction (s : Signature) : Additive (declareFunction s) :=
  (additive_lowerSignature s).bind fun _ => (additive_addFunction _).bind fun _ => additive_pure _

theorem additive_defineFunction (item : FunctionItem) (arguments : List LoweredType) (result : LoweredType) :
    Additive (defineFunction item arguments result) := by
  intro u
  unfold defineFunction
  dsimp only
  split
  · exact .refl u
  · split
    · exact .refl u
    · next entry endBlock _ => exact Lowering.reaches_lowerFunctionBody item ⟨u, _, entry, endBlock, [[]]⟩

theorem additive_lowerFunction (item : FunctionItem) : Additive (lowerFunction item) :=
  (additive_report _).bind fun _ => (additive_lowerSignature _).bind fun _ =>
    (additive_defineFunction _ _ _).bind fun _ => (additive_report _).bind fun _ =>
      (additive_addFunction _).bind fun _ => additive_pure _

theorem additive_declareItem (item : Item) : Additive (declareItem item) := by
  cases item with
  | type t => exact (additive_lowerType _).bind fun _ => additive_pure _
  | function f => exact additive_declareFunction _
  | foreign s => exact additive_declareFunction _

theorem additive_lowerItem (item : Item) : Additive (lowerItem item) := by
  cases item with
  | function f => exact additive_lowerFunction f
  | type t | foreign s => exact additive_pure _

theorem collecting_state (x : Interning Unit) (u : CompilationUnit) : (collecting x u).state = (x u).state := by
  unfold collecting
  rcases x u with ⟨e | a, v, log⟩
  · dsimp only
    split <;> rfl
  · rfl

theorem additive_collectingAll {step : Item → Interning Unit} (h : ∀ item, Additive (step item)) (items : List Item) :
    Additive (collectingAll step items) := by
  induction items with
  | nil => exact additive_pure _
  | cons item items ih =>
    refine .bind (fun u => ?_) fun _ => ih.bind fun _ => additive_pure _
    rw [collecting_state]
    exact h item u

theorem additive_verifyFinished (m : Module) : Additive (verifyFinished m) := by
  have hverify : Additive verify := by
    refine additive_get_bind fun u => ?_
    dsimp only
    split
    · exact (additive_report _).bind fun _ => additive_pure _
    · exact (additive_pure _).bind fun _ => additive_pure _
  refine additive_get_bind fun u => ?_
  split
  · refine hverify.bind fun found => ?_
    split
    · exact additive_pure _
    · exact additive_fault _
  · exact additive_pure _

/-- **Lowering a module is a series of additions by surface code**, also where it fails. -/
theorem additive_lowerProgram (m : Module) : Additive (lowerProgram m) := by
  refine (additive_report _).bind fun _ => ?_
  refine (additive_collectingAll additive_declareItem m.items).bind fun declaring => ?_
  refine (additive_collectingAll additive_lowerItem m.items).bind fun lowering => ?_
  dsimp only
  split
  · exact (additive_verifyFinished m).bind fun _ => additive_get_bind fun _ => additive_report _
  · exact additive_of_state fun _ => rfl

/-! ## Layers -/

/-- A member of typedef `i` is no address, and what typedef it refers to comes before `i`. -/
def Layered (u : CompilationUnit) : Prop :=
  ∀ id t, u.typedefAt? id = some t → ∀ m ∈ t.members,
    m.ty.isPointer = false ∧ ∀ j, m.ty.typedef? = some j → j.index < id.index

theorem layered_empty (name : String) (options : Options) : Layered (empty name options) := nofun

theorem Lowers.exists_lowerType {tys : List Ty} {members : List TypeMember} (h : u.Lowers tys members) :
    ∀ m ∈ members, ∃ ty, Gives (lowerType ty) u m.ty u := by
  induction h with
  | nil => exact nofun
  | cons hm _ ih =>
    intro m hmem
    rcases List.mem_cons.1 hmem with rfl | hmem
    · exact ⟨_, hm.2⟩
    · exact ih m hmem

/-- The members were lowered before the typedef takes the next place. -/
theorem Layered.addTypeDef (h : u.Layered) {key : String} {t : TypeDef} {id : TypeDefId} {tys : List Ty}
    (hlow : u.Lowers tys t.members) (hadd : Gives (addTypeDef key t) u id u') : u'.Layered := by
  obtain ⟨hk, -, -, rfl, rfl⟩ := addTypeDef_gives hadd
  intro id t' ht' m hm
  have hat : (u.typedefs.insert key t).at? id.index = some t' := ht'
  rw [Table.at?_insert_of_not_mem hk] at hat
  by_cases hid : id = ⟨u.typedefs.size⟩
  · rw [if_pos hid] at hat
    obtain rfl := Option.some.inj hat
    obtain ⟨ty, hty⟩ := hlow.exists_lowerType m hm
    refine ⟨lowerType_isPointer hty, fun j hj => ?_⟩
    rw [hid]
    exact lowerType_knows hty j hj
  · rw [if_neg hid] at hat
    exact h id t' hat m hm

theorem Layered.of_typedefs (h : u.Layered) (ht : u'.typedefs = u.typedefs) : u'.Layered := by
  intro id t hat
  rw [typedefAt?, ht] at hat
  exact h id t hat

theorem Layered.lowerType (h : u.Layered) (ty : Ty) : (lowerType ty u).state.Layered :=
  lowerType_keeps (P := fun _ => True) (R := fun u u' => u.Layered → u'.Layered) (fun _ h => h)
    (fun h₁ h₂ h => h₂ (h₁ h)) (fun _ _ _ => trivial) (fun _ _ hlow hadd h => h.addTypeDef hlow hadd) trivial u h

/-- What surface code adds, apart from types, leaves the typedefs alone. -/
theorem perform_typedefs (hu : u.Indexed) {a : Addition} (ha : a.isSurface = true) :
    (∃ ty, a = .type ty) ∨ (a.perform u).state.typedefs = u.typedefs := by
  cases a with
  | typedef key t => cases ha
  | type ty => exact Or.inl ⟨ty, rfl⟩
  | function f =>
    right
    rw [Addition.perform, state_ignore]
    rcases state_of_restores (addFunction_restores hu.functions_le f) with heq | ⟨id, hadd⟩
    · rw [heq]
    · exact (addFunction_gives hadd).2.1
  | literal content =>
    right
    rw [Addition.perform, state_ignore]
    rcases state_of_restores (internLiteral_restores content) with heq | ⟨id, hadd⟩
    · rw [heq]
    · rcases internLiteral_gives hadd with ⟨-, heq⟩ | ⟨-, -, -, -, heq⟩
      · rw [heq]
      · rw [heq]

/-- **Typedefs refer to earlier ones in every unit reached by surface code.** -/
theorem Reaches.layered (h : Reaches u u') (hi : u.Indexed) (hu : u.Layered) : u'.Indexed ∧ u'.Layered := by
  refine h.keeps (P := fun u => u.Indexed ∧ u.Layered) ?_ ⟨hi, hu⟩
  rintro a u ha ⟨hi, hu⟩
  refine ⟨hi.perform a, ?_⟩
  rcases perform_typedefs hi ha with ⟨ty, rfl⟩ | ht
  · rw [Addition.perform, state_ignore]
    exact hu.lowerType ty
  · exact hu.of_typedefs ht

theorem Reaches.typedefs (h : Reaches u u') : u.typedefs.entries <+: u'.typedefs.entries := by
  obtain ⟨additions, -, rfl⟩ := h
  exact typedefs_performAll additions u

/-! ## Sizes -/

/-- What the recursion through the typedefs comes to: there is a size only if the recursion ends. -/
inductive Measures (u : CompilationUnit) : LoweredType → UInt64 → Prop where
  | address {ty : LoweredType} : ty.isPointer = true → Measures u ty wordSize
  | elementary (e : Elementary) : Measures u (.elementary e) (UInt64.ofNat e.byteSize)
  | unknown {id : TypeDefId} : u.typedefAt? id = none → Measures u (.composite id) 0
  | composite {id : TypeDefId} {t : TypeDef} {sizes : List UInt64} : u.typedefAt? id = some t →
      List.Forall₂ (fun m size => Measures u m.ty size) t.members sizes →
      Measures u (.composite id)
        (if t.isUnion then sizes.foldl max 0 + wordSize else sizes.foldl (· + ·) 0)

theorem measures_address {l : LoweredType} (hp : l.isPointer = true) {n : UInt64} :
    u.Measures l n ↔ n = wordSize := by
  constructor
  · intro h
    cases h with
    | address => rfl
    | elementary | unknown | composite => cases hp
  · rintro rfl
    exact .address hp

theorem measures_elementary {e : Elementary} {n : UInt64} :
    u.Measures (.elementary e) n ↔ n = UInt64.ofNat e.byteSize := by
  constructor
  · intro h
    cases h with
    | address hp => cases hp
    | elementary => rfl
  · rintro rfl
    exact .elementary e

theorem measures_unknown {id : TypeDefId} (hid : u.typedefAt? id = none) {n : UInt64} :
    u.Measures (.composite id) n ↔ n = 0 := by
  constructor
  · intro h
    cases h with
    | address hp => cases hp
    | unknown => rfl
    | composite hat => cases hid.symm.trans hat
  · rintro rfl
    exact .unknown hid

theorem measures_composite {id : TypeDefId} {t : TypeDef} (ht : u.typedefAt? id = some t) {n : UInt64} :
    u.Measures (.composite id) n ↔ ∃ sizes, List.Forall₂ (fun m size => u.Measures m.ty size) t.members sizes ∧
      n = if t.isUnion then sizes.foldl max 0 + wordSize else sizes.foldl (· + ·) 0 := by
  constructor
  · intro h
    cases h with
    | address hp => cases hp
    | unknown hid => cases ht.symm.trans hid
    | composite hat hm =>
      obtain rfl := Option.some.inj (ht.symm.trans hat)
      exact ⟨_, hm, rfl⟩
  · rintro ⟨sizes, hm, rfl⟩
    exact .composite ht hm

/-- A relation that is a function on the members of a list relates the list to its image. -/
theorem forall₂_iff_eq_map {γ δ : Type} {R : γ → δ → Prop} {f : γ → δ} {xs : List γ}
    (h : ∀ x ∈ xs, ∀ y, R x y ↔ y = f x) {ys : List δ} : List.Forall₂ R xs ys ↔ ys = xs.map f := by
  induction xs generalizing ys with
  | nil => simp
  | cons x xs ih =>
    rw [List.forall_mem_cons] at h
    cases ys with
    | nil => simp
    | cons y ys => rw [List.forall₂_cons, h.1, ih h.2, List.map_cons, List.cons.injEq]

/-- **The recursion through layered typedefs ends, in the size at any depth that is large enough.** -/
theorem Layered.measures_iff (hu : u.Layered) (depth : Nat) : ∀ {l : LoweredType} {n : UInt64},
    (∀ id, l.typedef? = some id → id.index < depth) → (u.Measures l n ↔ n = u.byteSizeWithin depth l) := by
  induction depth with
  | zero =>
    rintro ⟨_ | id, _ | _⟩ n hdepth
    · exact measures_elementary
    · exact measures_address rfl
    · exact absurd (hdepth id rfl) (Nat.not_lt_zero _)
    · exact measures_address rfl
  | succ depth ih =>
    rintro ⟨e | id, _ | _⟩ n hdepth
    · exact measures_elementary
    · exact measures_address rfl
    · show u.Measures (.composite id) n ↔ n = u.byteSizeWithin (depth + 1) (.composite id)
      cases ht : u.typedefAt? id with
      | none =>
        have hzero : u.byteSizeWithin (depth + 1) (.composite id) = 0 := by
          rw [byteSizeWithin.eq_def]
          simp [LoweredType.composite, ht]
        rw [hzero, measures_unknown ht]
      | some t =>
        -- the members refer to typedefs before `id`, so they fit a depth one less
        have hmembers : ∀ m ∈ t.members, ∀ size, u.Measures m.ty size ↔ size = u.byteSizeWithin depth m.ty := by
          intro m hm size
          refine ih fun j hj => ?_
          have hlt := (hu id t ht m hm).2 j hj
          have := hdepth id rfl
          omega
        rw [measures_composite ht, byteSizeWithin_composite ht]
        simp only [forall₂_iff_eq_map hmembers, exists_eq_left]
    · exact measures_address rfl

/-! ## Texts -/

/-- A member is written with the name of its elementary type or of a typedef before its own. -/
theorem Layered.typeText (hu : u.Layered) {id : TypeDefId} {t : TypeDef} (ht : u.typedefAt? id = some t)
    {m : TypeMember} (hm : m ∈ t.members) :
    (∃ e, m.ty = .elementary e ∧ u.typeText m.ty = e.name) ∨
      ∃ j d, m.ty = .composite j ∧ j.index < id.index ∧ u.typedefAt? j = some d ∧ u.typeText m.ty = "$" ++ d.name := by
  obtain ⟨hp, hlt⟩ := hu id t ht m hm
  obtain ⟨name, e | j, pointer⟩ := m
  · obtain rfl : pointer = false := hp
    exact Or.inl ⟨e, rfl, rfl⟩
  · obtain rfl : pointer = false := hp
    have hj : j.index < id.index := hlt j rfl
    have hin : id.index < u.typedefs.size := by
      obtain ⟨k, hk⟩ := Table.at?_eq_some_iff.1 ht
      exact (List.getElem?_eq_some_iff.1 hk).1
    have hknows : u.Knows (.composite j) := by
      rintro _ ⟨⟩
      omega
    obtain ⟨d, hd⟩ := hknows.typedefAt? rfl
    exact Or.inr ⟨j, d, rfl, hj, hd, by simp [CompilationUnit.typeText, hd]⟩

/-! ## Every moment of lowering -/

/-- Typedefs refer to earlier ones, and what depends on that works out. -/
structure Acyclic (u : CompilationUnit) : Prop where
  /-- A member of typedef `i` is no address, and what typedef it refers to comes before `i`. -/
  layered : u.Layered
  /-- The size of every lowered type can be found, from then on. -/
  size : ∀ {ty l u'}, Gives (lowerType ty) u l u' → ∀ {v}, Reaches u' v → ∀ n, v.Measures l n ↔ n = v.byteSize l
  /-- No member is written as an unknown typedef. -/
  text : ∀ {id t}, u.typedefAt? id = some t → ∀ m ∈ t.members,
    (∃ e, m.ty = .elementary e ∧ u.typeText m.ty = e.name) ∨
      ∃ j d, m.ty = .composite j ∧ j.index < id.index ∧ u.typedefAt? j = some d ∧ u.typeText m.ty = "$" ++ d.name

theorem Reaches.acyclic {name : String} {options : Options} (h : Reaches (empty name options) u) : u.Acyclic := by
  have hempty := indexed_empty name options
  have hlayered := (h.layered hempty (layered_empty name options)).2
  refine ⟨hlayered, ?_, fun ht m hm => hlayered.typeText ht hm⟩
  intro ty l u' hty v hv n
  have hreach : Reaches (empty name options) u' := h.trans (hty.2 ▸ additive_lowerType ty u)
  obtain ⟨hi', hu'⟩ := hreach.layered hempty (layered_empty name options)
  refine (hv.layered hi' hu').2.measures_iff v.typedefs.size ?_
  exact (lowerType_knows hty).mono hv.typedefs.length_le

/-- **The typedefs of a unit refer to earlier ones only**, whatever surface code adds and wherever it is refused; and
lowering expressions, statements, items or a whole module, whether it succeeds or not, is adding by surface code. -/
theorem reached_acyclic :
    (∀ {name : String} {options : Options} {u : CompilationUnit}, Reaches (empty name options) u → u.Acyclic) ∧
    (∀ e s, Reaches s.unit (Lowering.lowerExpr e s).state.unit) ∧
    (∀ st s, Reaches s.unit (Lowering.lowerStatement st s).state.unit) ∧
    (∀ items u, Reaches u (collectingAll declareItem items u).state) ∧
    (∀ items u, Reaches u (collectingAll lowerItem items u).state) ∧
    ∀ m u, Reaches u (lowerProgram m u).state :=
  ⟨Reaches.acyclic, Lowering.reaches_lowerExpr, Lowering.reaches_lowerStatement,
    additive_collectingAll additive_declareItem, additive_collectingAll additive_lowerItem, additive_lowerProgram⟩

end CompilationUnit

namespace Sample

open CompilationUnit

/-- A function type has no layout, so the first type is refused; what is left of it is the typedef of its member, which
the second type finds again. -/
theorem entry_acyclic :
    let u := (Addition.performAll [.type withFunction] (.empty "sample" {})).state
    let u' := (CompilationUnit.lowerType entry u).state
    (((Addition.type withFunction).perform (.empty "sample" {})).result.isOk = false ∧ u.typedefs.size = 1) ∧
      u.Acyclic ∧ u'.typedefs.size = 2 ∧ u'.Measures (.composite ⟨1⟩) 17 := by
  have hreach : Reaches (.empty "sample" {}) (Addition.performAll [.type withFunction] (.empty "sample" {})).state :=
    ⟨[.type withFunction], by decide, rfl⟩
  have hacyclic := reached_acyclic.1 hreach
  have hlower : Gives (CompilationUnit.lowerType entry)
      (Addition.performAll [.type withFunction] (.empty "sample" {})).state (.composite ⟨1⟩) _ :=
    ⟨eq_ok_of_toOption (by decide +kernel), rfl⟩
  refine ⟨⟨by decide +kernel, by decide +kernel⟩, hacyclic, by decide +kernel, ?_⟩
  exact (hacyclic.size hlower (.refl _) 17).2 (by decide +kernel)

end Sample

end BlockForm
