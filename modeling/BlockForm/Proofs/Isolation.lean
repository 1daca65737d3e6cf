import BlockForm.Proofs.ItemOrder

/-!
# BlockForm.Proofs.Isolation — a user error stays in its function

A function that is rejected leaves behind the typedefs and literals it had made, and the functions after it are lowered
among them.  They make no difference: the unit `F` that the second pass ends in has grown from every unit on the way,
and the unit after the first pass is embedded in it, so that each item is accepted or rejected in the course of the pass
as it is alone, right after the first pass (`collects_alone`).  Hence lowering a module reports, in the order of the
items, what lowering each of its functions among mere declarations reports (`Module.lower_isolated`).
-/

namespace BlockForm

open Action

namespace CompilationUnit

variable {P : Ty → Prop} {u u' F t : CompilationUnit} {e : Error}

/-! ## What a pass with errors does to a unit -/

theorem Closed.interns (h : u.Closed) (hu : Interns P u u') : u'.Closed := by
  cases hu with
  | @typedef ty members id _ _ _ lowered added =>
    have hext := extends_of_addTypeDef added
    have hle := hext.typedefs_size_le
    refine ⟨membersKnown_of_addTypeDef h.members (Lowers.knows lowered) added, fun hf => ?_, fun l hl => ?_⟩
    · rw [function?, hext.functions] at hf
      obtain ⟨ha, hr⟩ := h.signatures hf
      exact ⟨fun ty hty => (ha ty hty).mono hle, hr.mono hle⟩
    · obtain ⟨-, -, -, -, rfl⟩ := addTypeDef_gives added
      exact (h.globals l hl).mono hle
  | literal _ added => exact h.internLiteral added

theorem Announces.advances {signatures : List Signature} (h : u.Announces signatures) (hu : Advances P u u') :
    u'.Announces signatures := by
  induction hu with
  | refl => exact h
  | tail _ step ih => exact ih.of_extends step.extends (ih.typed.closed.interns step)

theorem Proceeds.objects (h : Proceeds P u u') : u.objects ⊆ u'.objects := by
  have cons : ∀ {o : ObjectKey × String} {v w : CompilationUnit}, w.objects.Perm (o :: v.objects) →
      v.objects ⊆ w.objects := fun hp _ ho => hp.mem_iff.2 (List.mem_cons_of_mem _ ho)
  induction h with
  | refl => exact List.Subset.refl _
  | tail _ step ih =>
    refine List.Subset.trans ih ?_
    cases step with
    | interned step =>
      cases step with
      | typedef _ _ _ _ added => exact cons (objects_addTypeDef added)
      | literal new added => exact cons (objects_internLiteral new added)
    | @function f id added =>
      rcases addFunction_cases added with ⟨hmem, rfl⟩ | ⟨hmem, -⟩
      · simp only [CompilationUnit.objects, Table.keys_insert_of_mem hmem]
        exact List.Subset.refl _
      · exact cons (objects_addFunction hmem added)

/-- A unit with functions for the same signatures that has grown to `F` is a stage of it. -/
theorem Announces.stage {signatures : List Signature} (h : u.Announces signatures) (hF : F.Announces signatures)
    (hp : Proceeds P u F) : F.Stage u := ⟨h.upholds hF hp.typedefs, hp.globals⟩

theorem LowersTo.mono {s : Signature} {arguments : List LoweredType} {result : LoweredType}
    (h : u.LowersTo s arguments result) (hu : u.typedefs.entries <+: u'.typedefs.entries) :
    u'.LowersTo s arguments result :=
  ⟨h.arguments.imp fun _ _ ⟨l, hl, he⟩ => ⟨l, lowerType_again hl hu, he⟩, lowerType_again h.result hu⟩

/-! ## Definitions that are rejected -/

theorem defineFunction_rejects_advances (hP : Ty.Family P) {item : FunctionItem} (hb : ∀ ty ∈ item.body.types, P ty)
    {arguments : List LoweredType} {result : LoweredType}
    (h : Rejects (defineFunction item arguments result) u e u') : Advances P u u' := by
  obtain ⟨f, entry, endBlock, f₁, s, -, -, hl, rfl⟩ := defineFunction_rejects.1 h
  have hF : Whole P (empty "" {}) := ⟨hP, orderly_empty "" {}⟩
  have hmirrors : Mirrors P _ (.of True) .same (Lowering.lowerFunctionBody item) (Lowering.lowerFunctionBody item) :=
    Lowering.mirrors_lowerFunctionBody hF hb
  exact (hmirrors.rejects hl).1

/-- **A definition that is rejected on the way to `F` is rejected in an embedded unit**, with the same error. -/
theorem Embedded.defineFunction_rejects (hF : Whole P F) {item : FunctionItem} (hb : ∀ ty ∈ item.body.types, P ty)
    {arguments arguments' : List LoweredType} {result result' : LoweredType}
    (h : Rejects (CompilationUnit.defineFunction item arguments result) u e u') (hu' : F.Stage u')
    (ht : Embedded P F t) (hann : F.Announced t) (ha : List.Forall₂ (LoweredType.Matches F t) arguments arguments')
    (hr : result.Matches F t result') :
    ∃ t', Rejects (CompilationUnit.defineFunction item arguments' result') t e t' := by
  obtain ⟨f, entry, endBlock, f₁, s, hd, ho, hl, rfl⟩ := CompilationUnit.defineFunction_rejects.1 h
  obtain ⟨g, g₁, hg, hg₁, hstart⟩ := ht.opened hann ha hr hd ho
  have hmirrors : Mirrors P F (.of True) .same (Lowering.lowerFunctionBody item) (Lowering.lowerFunctionBody item) :=
    Lowering.mirrors_lowerFunctionBody hF hb
  obtain ⟨t', hl'⟩ := (hmirrors.rejects hl).2 trivial (hstart u) hu'
  exact ⟨_, CompilationUnit.defineFunction_rejects.2 ⟨g, entry, endBlock, g₁, t', hg, hg₁, hl', rfl⟩⟩

/-! ## Items of a pass -/

section Pass

variable {signatures : List Signature} {item : Item} {errors : List Error}

/-- What an item leaves, whether it is accepted or rejected. -/
theorem collecting_lowerItem_proceeds (hP : Ty.Family P) (hi : ∀ ty ∈ item.types, P ty)
    (hs : ∀ s, item.signature? = some s → s ∈ signatures) (hu : u.Announces signatures)
    (h : Gives (collecting (lowerItem item)) u errors u') : u'.Announces signatures ∧ Proceeds P u u' := by
  rcases collecting_collects.1 h with ⟨-, h⟩ | ⟨e, -, h⟩
  · exact ⟨hu.lowerItem hs h, proceeds_of_lowerItem hP hi h⟩
  · cases item with
    | type t | foreign s => exact absurd h (not_rejects_of_plain (r := id) (plain_pure ()))
    | function f =>
      simp only [Item.types, List.forall_mem_append] at hi
      obtain ⟨arguments, result, u₁, h₁, h₂⟩ := lowerFunction_rejects.1 h
      have hadv := (lowerSignature_advances hP hi.1 h₁).1.trans (defineFunction_rejects_advances hP hi.2 h₂)
      exact ⟨hu.advances hadv, Advances.proceeds hadv⟩

theorem collectingAll_lowerItem_proceeds (hP : Ty.Family P) {items : List Item}
    (hi : ∀ item ∈ items, ∀ ty ∈ item.types, P ty)
    (hs : ∀ item ∈ items, ∀ s, item.signature? = some s → s ∈ signatures) :
    ∀ {u errors}, u.Announces signatures → Gives (collectingAll lowerItem items) u errors u' →
      u'.Announces signatures ∧ Proceeds P u u' := by
  induction items with
  | nil =>
    intro u errors hu h
    obtain ⟨-, rfl⟩ := gives_pure.1 h
    exact ⟨hu, .refl⟩
  | cons item items ih =>
    intro u errors hu h
    rw [List.forall_mem_cons] at hi hs
    obtain ⟨es, v, rest, h₁, h₂, -⟩ := collectingAll_cons_collects.1 h
    obtain ⟨hv, hproc⟩ := collecting_lowerItem_proceeds hP hi.1 hs.1 hu h₁
    obtain ⟨hu', hproc'⟩ := ih hi.2 hs.2 hv h₂
    exact ⟨hu', hproc.trans hproc'⟩

/-- A signature that has been lowered on the way to `F` can be lowered in an embedded unit. -/
theorem Follows.lowerSignature (hF : Whole P F) {s : Signature} (hs : ∀ ty ∈ s.types, P ty)
    {arguments : List LoweredType} {result : LoweredType}
    (h : Gives (CompilationUnit.lowerSignature s) u (arguments, result) u') (hp : Proceeds P u' F)
    (ht : Follows P F t) :
    ∃ arguments' result' t', Gives (CompilationUnit.lowerSignature s) t (arguments', result') t' ∧ Follows P F t' ∧
      List.Forall₂ (LoweredType.Matches F t') arguments arguments' ∧ result.Matches F t' result' := by
  have hl := (lowerSignature_advances hF.family hs h).2.mono hp.typedefs
  obtain ⟨arguments', result', t', h', ht', he, ha, hr⟩ := ht.toEmbedded.lowerSignature hF.family hF.orderly hs hl
  exact ⟨arguments', result', t', h', ⟨ht', ht.announced.of_extends he⟩, ha, hr⟩

section Functions

variable {f : FunctionItem} (hF : Whole P F) (hann : F.Announces signatures) (hsig : ∀ ty ∈ f.signature.types, P ty)
  (hbody : ∀ ty ∈ f.body.types, P ty) (hu : u.Announces signatures) (hp : Proceeds P u' F) (ht : Follows P F t)

include hF hann hsig hbody hu hp ht

/-- A function that is accepted on the way to `F` is accepted in an embedded unit. -/
theorem Follows.accepts (hf : f.signature ∈ signatures) (h : Gives (lowerFunction f) u () u') :
    ∃ t', Gives (lowerFunction f) t () t' := by
  obtain ⟨arguments, result, u₁, d, u₂, id, h₁, h₂, h₃⟩ := lowerFunction_gives h
  have hadv₁ := (lowerSignature_advances hF.family hsig h₁).1
  have hadv₂ := defineFunction_advances hF.family hbody h₂
  have hp₂ : Proceeds P u₂ F := Relation.ReflTransGen.head (.function h₃) hp
  have hstage := (hu.advances (hadv₁.trans hadv₂)).stage hann hp₂
  obtain ⟨arguments', result', t₁, h₁', ht₁, ha, hr⟩ :=
    ht.lowerSignature hF hsig h₁ ((Advances.proceeds hadv₂).trans hp₂)
  obtain ⟨d', t₂, h₂', -, ht₂, hmatch⟩ := ht₁.toEmbedded.defineFunction hF hbody h₂ hstage ht₁.announced ha hr
  have hname : d'.name ∈ F.functions.keys := by
    obtain ⟨-, hc, hka, hkr, -⟩ := lowerSignature_gives h₁ hu.typed.closed
    obtain ⟨g, -, -, -, -, hd, -⟩ := defineFunction_done hc hka hkr h₂
    obtain ⟨f', hf', -⟩ := hann.declares f.signature hf
    rw [← hmatch.name, hd]
    exact mem_keys_of_function? hf'
  obtain ⟨id', t₃, h₃', -⟩ := ht₂.addFunction hF.orderly hname
  refine ⟨t₃, ?_⟩
  simp only [lowerFunction, gives_bind, gives_report, gives_pure]
  exact ⟨(), t, rfl, (arguments', result'), t₁, h₁', d', t₂, h₂', (), t₂, rfl, id', t₃, h₃', trivial, rfl⟩

/-- A function that is rejected on the way to `F` is rejected in an embedded unit, with the same error. -/
theorem Follows.rejects (h : Rejects (lowerFunction f) u e u') : ∃ t', Rejects (lowerFunction f) t e t' := by
  obtain ⟨arguments, result, u₁, h₁, h₂⟩ := lowerFunction_rejects.1 h
  have hadv₁ := (lowerSignature_advances hF.family hsig h₁).1
  have hadv₂ := defineFunction_rejects_advances hF.family hbody h₂
  have hstage := (hu.advances (hadv₁.trans hadv₂)).stage hann hp
  obtain ⟨arguments', result', t₁, h₁', ht₁, ha, hr⟩ :=
    ht.lowerSignature hF hsig h₁ ((Advances.proceeds hadv₂).trans hp)
  obtain ⟨t', h₂'⟩ := ht₁.toEmbedded.defineFunction_rejects hF hbody h₂ hstage ht₁.announced ha hr
  exact ⟨t', lowerFunction_rejects.2 ⟨arguments', result', t₁, h₁', h₂'⟩⟩

end Functions

/-- **An item is accepted or rejected in an embedded unit as it is on the way to `F`.** -/
theorem Follows.collects (hF : Whole P F) (hann : F.Announces signatures) (hi : ∀ ty ∈ item.types, P ty)
    (hs : ∀ s, item.signature? = some s → s ∈ signatures) (hu : u.Announces signatures)
    (h : Gives (collecting (lowerItem item)) u errors u') (hp : Proceeds P u' F) (ht : Follows P F t) :
    ∃ t', Gives (collecting (lowerItem item)) t errors t' := by
  cases item with
  | type _ | foreign _ =>
    rcases collecting_collects.1 h with ⟨rfl, -⟩ | ⟨e, -, h⟩
    · exact ⟨t, collecting_gives.2 (gives_pure.2 ⟨rfl, rfl⟩)⟩
    · exact absurd h (not_rejects_of_plain (r := id) (plain_pure ()))
  | function f =>
    simp only [Item.types, List.forall_mem_append] at hi
    rcases collecting_collects.1 h with ⟨rfl, haccepted⟩ | ⟨e, rfl, hrejected⟩
    · obtain ⟨t', h'⟩ := ht.accepts hF hann hi.1 hi.2 hu hp (hs _ rfl) haccepted
      exact ⟨t', collecting_gives.2 h'⟩
    · obtain ⟨t', h'⟩ := ht.rejects hF hann hi.1 hi.2 hu hp hrejected
      exact ⟨t', collecting_collects.2 (Or.inr ⟨e, rfl, h'⟩)⟩

/-- The user errors of an item that is lowered in the unit. -/
def mistakes (u : CompilationUnit) (item : Item) : List Error :=
  (collecting (lowerItem item) u).result.toOption.getD []

theorem mistakes_of_gives (h : Gives (collecting (lowerItem item)) u errors u') : u.mistakes item = errors := by
  rw [mistakes, h.1]
  rfl

/-- An item makes one user error or none. -/
theorem mistakes_cases (u : CompilationUnit) (item : Item) :
    u.mistakes item = [] ∨ ∃ mistake span, u.mistakes item = [.user mistake span] := by
  cases hc : (collecting (lowerItem item) u).result with
  | error e => exact Or.inl (by rw [mistakes, hc]; rfl)
  | ok errors =>
    have h : Gives (collecting (lowerItem item)) u errors _ := ⟨hc, rfl⟩
    rw [mistakes_of_gives h]
    rcases collecting_collects.1 h with ⟨rfl, -⟩ | ⟨e, rfl, hrejected⟩
    · exact Or.inl rfl
    · obtain ⟨mistake, span, rfl⟩ := hrejected.ordinary (plain_lowerItem (b := false) item)
      exact Or.inr ⟨mistake, span, rfl⟩

/-- **Every item is accepted or rejected in the pass as it is alone.** -/
theorem collects_alone (hF : Whole P F) (hann : F.Announces signatures) (ht : Follows P F t) {items : List Item}
    (hi : ∀ item ∈ items, ∀ ty ∈ item.types, P ty)
    (hs : ∀ item ∈ items, ∀ s, item.signature? = some s → s ∈ signatures) :
    ∀ {u errors}, u.Announces signatures → Gives (collectingAll lowerItem items) u errors F →
      errors = items.flatMap t.mistakes ∧
        ∀ item ∈ items, ∃ t', Gives (collecting (lowerItem item)) t (t.mistakes item) t' := by
  induction items with
  | nil =>
    intro u errors _ h
    exact ⟨(gives_pure.1 h).1.symm, nofun⟩
  | cons item items ih =>
    intro u errors hu h
    rw [List.forall_mem_cons] at hi hs
    obtain ⟨es, v, rest, h₁, h₂, rfl⟩ := collectingAll_cons_collects.1 h
    have hv := (collecting_lowerItem_proceeds hF.family hi.1 hs.1 hu h₁).1
    have hproc := (collectingAll_lowerItem_proceeds hF.family hi.2 hs.2 hv h₂).2
    obtain ⟨t', halone⟩ := ht.collects hF hann hi.1 hs.1 hu h₁ hproc
    obtain ⟨rfl, hrest⟩ := ih hi.2 hs.2 hv h₂
    have hes := mistakes_of_gives halone
    refine ⟨by rw [List.flatMap_cons, hes], List.forall_mem_cons.2 ⟨⟨t', ?_⟩, hrest⟩⟩
    rw [hes]
    exact halone

end Pass

/-! ## Modules with one body -/

theorem collectingAll_map (step : Item → Interning Unit) (g : Item → Item) (items : List Item) :
    collectingAll step (items.map g) = collectingAll (fun item => step (g item)) items := by
  induction items with
  | nil => rfl
  | cons item items ih => rw [List.map_cons, collectingAll, collectingAll, ih]

end CompilationUnit

open CompilationUnit

/-- The item, with its body only if it is the function with the name. -/
def Item.keeping (name : String) : Item → Item
  | .function f => if f.signature.name = name then .function f else .foreign f.signature
  | .foreign s => .foreign s
  | .type t => .type t

/-- The function with a body that the item is. -/
def Item.function? : Item → Option FunctionItem
  | .function f => some f
  | .foreign _ | .type _ => none

/-- The functions with a body. -/
def Module.functionItems (m : Module) : List FunctionItem := m.items.filterMap Item.function?

/-- The module with the body of one function, all others being declared only. -/
def Module.isolate (m : Module) (f : FunctionItem) : Module :=
  { m with items := m.items.map (Item.keeping f.signature.name) }

/-- The errors that lowering the module reports. -/
def Module.userErrors (m : Module) (options : Options) : List Error :=
  match m.lower options with
  | .error (.failed _ errors) => errors
  | _ => []

theorem Module.lower_of_userErrors {m : Module} {options : Options} (h : m.userErrors options ≠ []) :
    ∃ name, m.lower options = .error (.failed name (m.userErrors options)) := by
  unfold userErrors at h ⊢
  split at h
  · next name errors hlower => exact ⟨name, hlower⟩
  · exact absurd rfl h

theorem Module.mem_functionItems {m : Module} {f : FunctionItem} : f ∈ m.functionItems ↔ Item.function f ∈ m.items := by
  rw [functionItems, List.mem_filterMap]
  constructor
  · rintro ⟨item, hitem, hf⟩
    cases item with
    | function g =>
      cases hf
      exact hitem
    | foreign | type => cases hf
  · exact fun h => ⟨_, h, rfl⟩

theorem declareItem_keeping (name : String) (item : Item) : declareItem (item.keeping name) = declareItem item := by
  cases item with
  | function f =>
    rw [Item.keeping]
    split <;> rfl
  | foreign | type => rfl

theorem lowerItem_keeping_of_apart {item : Item} {f : FunctionItem} (h : item.Apart (.function f)) :
    lowerItem (item.keeping f.signature.name) = pure () := by
  cases item with
  | function g =>
    rw [Item.keeping, if_neg (h g.signature rfl f.signature rfl)]
    rfl
  | foreign | type => rfl

/-- The second pass over a module with one body lowers this body. -/
theorem collectingAll_keeping {f : FunctionItem} {items : List Item} (hapart : items.Pairwise Item.Apart)
    (hmem : Item.function f ∈ items) {u u' : CompilationUnit} {errors : List Error}
    (h : Gives (collecting (lowerItem (.function f))) u errors u') :
    Gives (collectingAll lowerItem (items.map (Item.keeping f.signature.name))) u errors u' := by
  have idle : ∀ {item : Item} {v : CompilationUnit}, item.Apart (.function f) →
      Gives (collecting (lowerItem (item.keeping f.signature.name))) v [] v := by
    intro item v ha
    rw [lowerItem_keeping_of_apart ha]
    exact collecting_gives.2 (gives_pure.2 ⟨rfl, rfl⟩)
  have idleAll : ∀ {items : List Item} {v : CompilationUnit}, (∀ item ∈ items, item.Apart (.function f)) →
      Gives (collectingAll lowerItem (items.map (Item.keeping f.signature.name))) v [] v := by
    intro items v ha
    induction items with
    | nil => exact gives_pure.2 ⟨rfl, rfl⟩
    | cons item items ih =>
      rw [List.forall_mem_cons] at ha
      exact collectingAll_cons_collects.2 ⟨[], v, [], idle ha.1, ih ha.2, rfl⟩
  induction items with
  | nil => cases hmem
  | cons item items ih =>
    rw [List.pairwise_cons] at hapart
    rcases List.mem_cons.1 hmem with rfl | hmem
    · have hself : (Item.function f).keeping f.signature.name = .function f := if_pos rfl
      refine collectingAll_cons_collects.2 ⟨errors, u', [], by rw [hself]; exact h, ?_, (List.append_nil _).symm⟩
      exact idleAll fun item hitem => symm (hapart.1 item hitem)
    · exact collectingAll_cons_collects.2 ⟨[], u, errors, idle (hapart.1 _ hmem), ih hapart.2 hmem, rfl⟩

/-! ## Lowering by passes with errors -/

/-- Without a fault, both passes come to their end, and the first has nothing to report. -/
theorem Module.collected_of_lower {m : Module} {options : Options}
    (h : ∀ fault, m.lower options ≠ .error (.internal fault)) :
    ∃ u errors F, Gives (collectingAll declareItem m.items) (.empty m.name options) [] u ∧
      Gives (collectingAll lowerItem m.items) u errors F := by
  rcases hp : passes m (.empty m.name options) with ⟨e | errors, F, log⟩
  · have hordinary := (plain_passes m true).error (s := .empty m.name options) (by rw [hp])
    have hlower : m.lower options = .error e := by
      have hrun := lowerProgram_run m m.name options
      simp only [hp] at hrun
      show (lowerProgram m (.empty m.name options)).result.map
        (fun _ => (lowerProgram m (.empty m.name options)).state) = _
      rw [hrun]
      rfl
    cases e with
    | internal fault => exact absurd hlower (h fault)
    | io | config | user | failed => cases hordinary
  · have hpasses : Gives (passes m) (.empty m.name options) errors F := ⟨by rw [hp], by rw [hp]⟩
    simp only [passes, gives_report_bind, gives_bind (x := collectingAll _ _), gives_pure] at hpasses
    obtain ⟨declaring, u, h₁, lowering, _, h₂, -, rfl⟩ := hpasses
    obtain rfl := collectingAll_of_plain (plain_declareItem (b := false)) h₁
    exact ⟨u, lowering, _, h₁, h₂⟩

/-- The second pass reports what the items report alone, right after the first pass. -/
theorem Module.lowering_alone {m : Module} (hd : m.DistinctFunctions) (hk : Ty.DistinctKeys m.types)
    {options : Options} (h : ∀ fault, m.lower options ≠ .error (.internal fault)) :
    ∃ u F, Gives (collectingAll declareItem m.items) (.empty m.name options) [] u ∧
      Gives (collectingAll lowerItem m.items) u (m.items.flatMap u.mistakes) F ∧
      ∀ item ∈ m.items, ∃ t, Gives (collecting (lowerItem item)) u (u.mistakes item) t := by
  obtain ⟨u, errors, F, h₁, h₂⟩ := Module.collected_of_lower h
  have hP := hk.family
  have hi : ∀ item ∈ m.items, ∀ ty ∈ item.types, ty ∈ Ty.partsList m.types := fun item hitem ty hty =>
    Ty.parts_subset_partsList (List.mem_flatMap.2 ⟨item, hitem, hty⟩) (Ty.self_mem_parts ty)
  have htypes : ∀ s ∈ m.signatures, ∀ ty ∈ s.types, ty ∈ Ty.partsList m.types := by
    intro s hs ty hty
    obtain ⟨item, hitem, hsig⟩ := List.mem_filterMap.1 hs
    exact hi item hitem ty (Item.types_of_signature? hsig hty)
  have hu := announces_of_module hd h₁
  have hproc₁ : Proceeds (· ∈ Ty.partsList m.types) (.empty m.name options) u :=
    proceeds_of_pass (fun hm hg => proceeds_of_declareItem hP (hi _ hm) hg) h₁
  obtain ⟨hF, hproc₂⟩ :=
    collectingAll_lowerItem_proceeds hP hi (fun _ hitem => mem_signatures hitem) hu h₂
  have hwhole : Whole (· ∈ Ty.partsList m.types) F :=
    ⟨hP, Proceeds.orderly (hproc₁.trans hproc₂) (orderly_empty m.name options)⟩
  -- The unit after the first pass is embedded in the one that the second pass ends in.
  have hfollows : Follows (· ∈ Ty.partsList m.types) F u :=
    ⟨⟨Proceeds.orderly hproc₁ (orderly_empty m.name options), (Proceeds.options hproc₂).symm, Proceeds.objects hproc₂⟩,
      announced_of_declares hP htypes hF.only hF.declares hu.declares⟩
  obtain ⟨rfl, halone⟩ := collects_alone hwhole hF hfollows hi (fun _ hitem => mem_signatures hitem) hu h₂
  exact ⟨u, F, h₁, h₂, halone⟩

/-- A module with one body reports what this body reports. -/
theorem Module.lower_isolate {m : Module} (hd : m.DistinctFunctions) {f : FunctionItem} (hf : f ∈ m.functionItems)
    {options : Options} {u t : CompilationUnit} {errors : List Error}
    (h₁ : Gives (collectingAll declareItem m.items) (.empty m.name options) [] u)
    (h₂ : Gives (collecting (lowerItem (.function f))) u errors t) :
    (m.isolate f).lower options = m.answer errors t := by
  refine Module.lower_of_collected (m := m.isolate f) (u := u) ?_
    (collectingAll_keeping hd.pairwise (Module.mem_functionItems.1 hf) h₂)
  show Gives (collectingAll declareItem (m.items.map _)) (.empty m.name options) [] u
  simp only [collectingAll_map, declareItem_keeping]
  exact h₁

theorem Module.flatMap_mistakes (m : Module) (u : CompilationUnit) :
    m.items.flatMap u.mistakes = m.functionItems.flatMap fun f => u.mistakes (.function f) := by
  unfold Module.functionItems
  induction m.items with
  | nil => rfl
  | cons item items ih =>
    cases item with
    | function f => simp only [List.flatMap_cons, List.filterMap_cons, Item.function?, ih]
    | foreign s | type t =>
      simp only [List.flatMap_cons, List.filterMap_cons, Item.function?, ih]
      rfl

/-- **User errors are isolated.**  If no two functions of a module have the same name, no two types that occur in it the
same key, and lowering does not end in a fault, then lowering succeeds exactly if it does for each function among mere
declarations of the others; each of these runs succeeds or reports one user error; and lowering the module reports the
errors of the runs that fail, in the order of the items. -/
theorem Module.lower_isolated {m : Module} (hd : m.DistinctFunctions) (hk : Ty.DistinctKeys m.types)
    {options : Options} (h : ∀ fault, m.lower options ≠ .error (.internal fault)) :
    ((∃ u, m.lower options = .ok u) ↔ ∀ f ∈ m.functionItems, ∃ u, (m.isolate f).lower options = .ok u) ∧
    (∀ f ∈ m.functionItems, (∃ u, (m.isolate f).lower options = .ok u) ∨
      ∃ mistake span, (m.isolate f).lower options = .error (.failed m.name [.user mistake span])) ∧
    ((∀ u, m.lower options ≠ .ok u) → m.lower options =
      .error (.failed m.name (m.functionItems.flatMap fun f => (m.isolate f).userErrors options))) := by
  obtain ⟨u, F, h₁, h₂, halone⟩ := Module.lowering_alone hd hk h
  have hlower := Module.lower_of_collected h₁ h₂
  rw [m.flatMap_mistakes] at hlower
  have hisolate : ∀ f ∈ m.functionItems, ∃ t, (m.isolate f).lower options = m.answer (u.mistakes (.function f)) t := by
    intro f hf
    obtain ⟨t, ht⟩ := halone _ (Module.mem_functionItems.1 hf)
    exact ⟨t, Module.lower_isolate hd hf h₁ ht⟩
  have hok : ∀ f ∈ m.functionItems,
      (∃ v, (m.isolate f).lower options = .ok v) ↔ u.mistakes (.function f) = [] := by
    intro f hf
    obtain ⟨t, ht⟩ := hisolate f hf
    rw [ht, Module.answer_eq_ok_iff]
  have herrors : ∀ f ∈ m.functionItems, (m.isolate f).userErrors options = u.mistakes (.function f) := by
    intro f hf
    obtain ⟨t, ht⟩ := hisolate f hf
    rw [Module.userErrors, ht]
    cases u.mistakes (.function f) <;> rfl
  refine ⟨?_, fun f hf => ?_, fun hfail => ?_⟩
  · rw [hlower, Module.answer_eq_ok_iff, List.flatMap_eq_nil_iff]
    exact forall₂_congr fun f hf => (hok f hf).symm
  · rcases mistakes_cases u (.function f) with hnone | ⟨mistake, span, hone⟩
    · exact Or.inl ((hok f hf).2 hnone)
    · obtain ⟨t, ht⟩ := hisolate f hf
      exact Or.inr ⟨mistake, span, by rw [ht, hone]; rfl⟩
  · have hne : (m.functionItems.flatMap fun f => u.mistakes (.function f)) ≠ [] := by
      intro hnil
      obtain ⟨v, hv⟩ := Module.answer_eq_ok_iff.2 hnil
      exact hfail v (hlower.trans hv)
    rw [hlower, Module.answer_of_ne_nil hne, List.flatMap_congr fun f hf => (herrors f hf).symm]

namespace Sample

/-- `fn name(value: i32 | string) { tell(content); match value { only } }` -/
def chooser (name content : String) (only : MatchCase) : FunctionItem :=
  .of ⟨name, [⟨"value", either, default⟩], none, default⟩
    (.ofStatements [.effect (.ofCall "tell" [.text content (.elementary .string) default] tell.ty default),
      .effect (.choice (.ident "value" either default) [only] (.elementary .string) default)] default)

/-- A match on a type that is no member. -/
def early : FunctionItem :=
  chooser "early" "lost" (.unbound (some (.elementary .bool)) (.text "" (.elementary .string) default) default)

/-- A match that names the payload of two members at once. -/
def late : FunctionItem :=
  chooser "late" "found" (.mk none (some "rest") (.text "" (.elementary .string) default) .empty default)

/-- A function between two that are rejected. -/
def mixed : Module :=
  ⟨"sample", [.function early, .foreign tell, .function (teller "fine" either "kept"), .function late], .empty⟩

/-- The function in the middle is accepted, and the mistakes of the others are reported in order. -/
theorem mixed_isolated :
    mixed.DistinctFunctions ∧ Ty.DistinctKeys mixed.types ∧ (∀ fault, mixed.lower {} ≠ .error (.internal fault)) ∧
    (∃ u, (mixed.isolate (teller "fine" either "kept")).lower {} = .ok u) ∧
    mixed.lower {} = .error (.failed "sample" ([early, teller "fine" either "kept", late].flatMap fun f =>
      (mixed.isolate f).userErrors {})) ∧
    (mixed.userErrors {}).map Error.message =
      ["type 'bool' is not a member of 'i32|string'", "cannot bind 'rest' to a case covering 2 members"] := by
  have hd : mixed.DistinctFunctions := by decide
  have hk : Ty.DistinctKeys mixed.types := by decide
  have hmessages : (mixed.userErrors {}).map Error.message =
      ["type 'bool' is not a member of 'i32|string'", "cannot bind 'rest' to a case covering 2 members"] := by
    decide +kernel
  obtain ⟨name, hlower⟩ : ∃ name, mixed.lower {} = .error (.failed name (mixed.userErrors {})) :=
    Module.lower_of_userErrors fun h => by
      rw [h] at hmessages
      cases hmessages
  have hfault : ∀ fault, mixed.lower {} ≠ .error (.internal fault) := by
    intro fault h
    cases hlower.symm.trans h
  obtain ⟨-, -, hreport⟩ := Module.lower_isolated hd hk hfault
  have hfine : ((mixed.isolate (teller "fine" either "kept")).lower {}).toOption.isSome = true := by decide +kernel
  obtain ⟨u, hu⟩ := Option.isSome_iff_exists.1 hfine
  refine ⟨hd, hk, hfault, ⟨u, eq_ok_of_toOption hu⟩, hreport fun u h => ?_, hmessages⟩
  cases hlower.symm.trans h

end Sample

end BlockForm
