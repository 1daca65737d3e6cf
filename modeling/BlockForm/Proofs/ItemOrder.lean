import BlockForm.Proofs.Settled
import BlockForm.Proofs.Sizes
import BlockForm.Proofs.Verified

/-!
# BlockForm.Proofs.ItemOrder — the order of the items does not matter

If the items of a module are lowered in another order, typedefs, literals and functions get other handles.  Each unit
of the second run is embedded in the unit `F` that the first run ends in, and from what `F` keeps of the items follows
that both passes over the items, in any order, succeed and end in a unit whose functions match those of `F`
(`Settled.passes`).  Applied from either side, this gives the main result: lowering succeeds for all orders or for
none, and the texts are the same (`Module.lower_perm`).
-/

namespace BlockForm

open Action

namespace CompilationUnit

variable {P : Ty → Prop} {u u' F t : CompilationUnit}

/-! ## Signatures and definitions in embedded units -/

namespace Embedded

theorem lowerParams (hP : Ty.Family P) (hF : Orderly P F) {params : List Param} {tys : List LoweredType}
    (hparams : ∀ p ∈ params, P p.ty)
    (hl : List.Forall₂ (fun p ty => ∃ l, Gives (CompilationUnit.lowerType p.ty) F l F ∧ ty = l.asArgument) params tys) :
    ∀ {t}, Embedded P F t → ∃ tys' t', Gives (CompilationUnit.lowerParams params) t tys' t' ∧ Embedded P F t' := by
  induction hl with
  | nil => exact fun {t} h => ⟨[], t, gives_pure.2 ⟨rfl, rfl⟩, h⟩
  | cons hp _ ih =>
    intro t h
    rw [List.forall_mem_cons] at hparams
    obtain ⟨l, hl, -⟩ := hp
    obtain ⟨l', t₁, h₁, ht₁⟩ := h.lowerType hP hF hparams.1 hl
    obtain ⟨tys', t₂, h₂, ht₂⟩ := ih hparams.2 ht₁
    refine ⟨l'.asArgument :: tys', t₂, ?_, ht₂⟩
    simp only [CompilationUnit.lowerParams, gives_bind, gives_pure]
    exact ⟨l', t₁, h₁, tys', t₂, h₂, rfl, rfl⟩

/-- A signature that the larger unit has lowered can be lowered in an embedded one. -/
theorem lowerSignature (hP : Ty.Family P) (hF : Orderly P F) {s : Signature} (hs : ∀ ty ∈ s.types, P ty)
    {arguments : List LoweredType} {result : LoweredType} (hl : F.LowersTo s arguments result) (h : Embedded P F t) :
    ∃ arguments' result' t', Gives (CompilationUnit.lowerSignature s) t (arguments', result') t' ∧ Embedded P F t' ∧
      t.Extends t' ∧ List.Forall₂ (LoweredType.Matches F t') arguments arguments' ∧
      result.Matches F t' result' := by
  obtain ⟨arguments', t₁, h₁, ht₁⟩ := h.lowerParams hP hF (Signature.types_of_params hs) hl.arguments
  obtain ⟨result', t₂, h₂, ht₂⟩ : ∃ l t', Gives (CompilationUnit.lowerType s.result) t₁ l t' ∧ Embedded P F t' := by
    rcases Signature.result_cases hs with hresult | hnil
    · exact ht₁.lowerType hP hF hresult hl.result
    · refine ⟨.elementary .nil, t₁, ?_, ht₁⟩
      rw [lowerType_eq, hnil]
      exact gives_pure.2 ⟨rfl, rfl⟩
  have hrun : Gives (CompilationUnit.lowerSignature s) t (arguments', result') t₂ := by
    simp only [CompilationUnit.lowerSignature, gives_bind, gives_pure]
    exact ⟨arguments', t₁, h₁, result', t₂, h₂, rfl, rfl⟩
  obtain ⟨hadv, hl'⟩ := lowerSignature_advances hP hs hrun
  exact ⟨arguments', result', t₂, hrun, ht₂, hadv.extends, hl.matches hl'⟩

end Embedded

theorem defineFunction_run {item : FunctionItem} {arguments : List LoweredType} {result : LoweredType}
    {f f₁ : Function} {entry endBlock : BlockId} {s : LoweringState}
    (hd : Gives (Function.pushArguments 0 arguments)
      { Function.declaration item.signature.name arguments result with layout := some #[] } () f)
    (ho : Gives Function.openBody f (entry, endBlock) f₁)
    (hl : Gives (Lowering.lowerFunctionBody item) ⟨u, f₁, entry, endBlock, [[]]⟩ () s) :
    Gives (defineFunction item arguments result) u s.function s.unit := by
  have hdef : Function.definition item.signature.name arguments result =
      Function.pushArguments 0 arguments
        { Function.declaration item.signature.name arguments result with layout := some #[] } := rfl
  unfold Gives defineFunction
  simp only [hdef, hd.1, hd.2, ho.1, ho.2, hl.1, hl.2, Except.map, and_self]

/-- A body is opened in the same way in both units. -/
theorem Embedded.opened {name : String} {arguments arguments' : List LoweredType} {result result' : LoweredType}
    {f f₁ : Function} {entry endBlock : BlockId} (ht : Embedded P F t) (hann : F.Announced t)
    (ha : List.Forall₂ (LoweredType.Matches F t) arguments arguments') (hr : result.Matches F t result')
    (hd : Gives (Function.pushArguments 0 arguments)
      { Function.declaration name arguments result with layout := some #[] } () f)
    (ho : Gives Function.openBody f (entry, endBlock) f₁) :
    ∃ g g₁, Gives (Function.pushArguments 0 arguments')
        { Function.declaration name arguments' result' with layout := some #[] } () g ∧
      Gives Function.openBody g (entry, endBlock) g₁ ∧
      ∀ u, Mirror P F ⟨u, f₁, entry, endBlock, [[]]⟩ ⟨t, g₁, entry, endBlock, [[]]⟩ := by
  have hdecl : Function.Matches F t { Function.declaration name arguments result with layout := some #[] }
      { Function.declaration name arguments' result' with layout := some #[] } :=
    { Function.matches_declaration name ha hr with layout := rfl }
  obtain ⟨g, hg, hfg⟩ := (Function.echoes_pushArguments ha 0).run hdecl hd
  obtain ⟨g₁, hg₁, hfg₁⟩ := Function.echoes_openBody.run hfg ho
  exact ⟨g, g₁, hg, hg₁, fun _ => ⟨hfg₁, rfl, rfl, rfl, ht, hann⟩⟩

/-- **A definition on the way to `F` has a matching one in an embedded unit.** -/
theorem Embedded.defineFunction (hF : Whole P F) {item : FunctionItem} (hb : ∀ ty ∈ item.body.types, P ty)
    {arguments arguments' : List LoweredType} {result result' : LoweredType} {d : Function}
    (h : Gives (CompilationUnit.defineFunction item arguments result) u d u') (hu' : F.Stage u') (ht : Embedded P F t)
    (hann : F.Announced t) (ha : List.Forall₂ (LoweredType.Matches F t) arguments arguments')
    (hr : result.Matches F t result') :
    ∃ d' t', Gives (CompilationUnit.defineFunction item arguments' result') t d' t' ∧ t.Extends t' ∧
      Embedded P F t' ∧ d.Matches F t' d' := by
  obtain ⟨hd, entry, endBlock, f₁, s, ho, hl, rfl, rfl⟩ := defineFunction_gives h
  obtain ⟨g, g₁, hg, hg₁, hstart⟩ := ht.opened hann ha hr ⟨hd, rfl⟩ ho
  have hmirrors : Mirrors P F (.of True) .same (Lowering.lowerFunctionBody item) (Lowering.lowerFunctionBody item) :=
    Lowering.mirrors_lowerFunctionBody hF hb
  obtain ⟨_, t', hl', he, -, hend⟩ := hmirrors.mirrors trivial (hstart u) hl hu'
  exact ⟨_, _, defineFunction_run hg hg₁ hl', he, hend.embedded, hend.function⟩

/-! ## The second run -/

theorem mem_keys_of_function? {name : String} {f : Function} (h : F.function? name = some f) :
    name ∈ F.functions.keys := by
  by_contra hn
  rw [function?, Table.get?_eq_none_iff.2 hn] at h
  cases h

/-- The function with the name is the same in both units. -/
def Reflects (F t : CompilationUnit) (name : String) : Prop :=
  ∃ f g, F.function? name = some f ∧ t.function? name = some g ∧ f.Matches F t g

theorem Reflects.extends {t' : CompilationUnit} {name : String} (h : F.Reflects t name) (he : t.Extends t') :
    F.Reflects t' name := by
  obtain ⟨f, g, hf, hg, hfg⟩ := h
  exact ⟨f, g, hf, by rwa [function?, he.functions], hfg.mono he.typedefs he.globals⟩

/-- A unit of the second pass: embedded, with all functions announced. -/
structure Follows (P : Ty → Prop) (F t : CompilationUnit) : Prop extends Embedded P F t where
  announced : F.Announced t

/-- A matching function takes its place, and the others stay what they are. -/
theorem Follows.addFunction (hF : Orderly P F) (h : Follows P F t) {f g : Function} (hf : F.function? g.name = some f)
    (hfg : f.Matches F t g) :
    ∃ id t', Gives (CompilationUnit.addFunction g) t id t' ∧ Follows P F t' ∧ F.Reflects t' g.name ∧
      ∀ n, F.Reflects t n → F.Reflects t' n := by
  obtain ⟨id, t', hadd, hemb⟩ := h.toEmbedded.addFunction hF (mem_keys_of_function? hf)
  obtain ⟨-, htypedefs, hglobals⟩ := addFunction_gives hadd
  have hfun := function?_of_addFunction hadd
  have hpre : t.typedefs.entries <+: t'.typedefs.entries := htypedefs ▸ List.prefix_refl _
  have hmono : ∀ {f g : Function}, f.Matches F t g → f.Matches F t' g := fun hm =>
    hm.mono hpre (hglobals ▸ List.prefix_refl _)
  have hself : t'.function? g.name = some g := by rw [hfun, if_pos rfl]
  have hother : ∀ {n}, n ≠ g.name → t'.function? n = t.function? n := fun hn => by rw [hfun, if_neg hn]
  refine ⟨id, t', hadd, ⟨hemb, fun n f' hf' => ?_⟩, ⟨f, g, hf, hself, hmono hfg⟩, fun n hn => ?_⟩
  · by_cases hname : n = g.name
    · subst hname
      obtain rfl := Option.some.inj (hf.symm.trans hf')
      exact ⟨g, hself, (hmono hfg).arguments, (hmono hfg).returnType⟩
    · obtain ⟨g', hg', ha, hr⟩ := h.announced n f' hf'
      exact ⟨g', (hother hname).trans hg', ha.imp fun _ _ hab => hab.mono hpre, hr.mono hpre⟩
  · by_cases hname : n = g.name
    · exact hname ▸ ⟨f, g, hf, hself, hmono hfg⟩
    · obtain ⟨f', g', hf', hg', hm⟩ := hn
      exact ⟨f', g', hf', (hother hname).trans hg', hmono hm⟩

/-- Two units with functions for the same signatures give them matching types. -/
theorem announced_of_declares (hP : Ty.Family P) {signatures : List Signature}
    (htypes : ∀ s ∈ signatures, ∀ ty ∈ s.types, P ty)
    (only : ∀ {name f}, F.function? name = some f → name ∈ signatures.map Signature.name)
    (hF : ∀ s ∈ signatures, F.Declares s) (ht : ∀ s ∈ signatures, t.Declares s) : F.Announced t := by
  intro name f hf
  obtain ⟨s, hs, rfl⟩ := List.mem_map.1 (only hf)
  obtain ⟨f', hf', hl⟩ := (hF s hs).lowersTo hP (htypes s hs)
  obtain rfl := Option.some.inj (hf.symm.trans hf')
  obtain ⟨g, hg, hl'⟩ := (ht s hs).lowersTo hP (htypes s hs)
  exact ⟨g, hg, hl.matches hl'⟩

/-- A pass succeeds if each of its steps does. -/
theorem collectingAll_runs (step : Item → Interning Unit) {Q : List Item → CompilationUnit → Prop}
    (hstep : ∀ {item rest u}, Q (item :: rest) u → ∃ u', Gives (step item) u () u' ∧ Q rest u') :
    ∀ {items u}, Q items u → ∃ u', Gives (collectingAll step items) u [] u' ∧ Q [] u'
  | [], u, h => ⟨u, gives_pure.2 ⟨rfl, rfl⟩, h⟩
  | item :: items, u, h => by
    obtain ⟨v, h₁, hv⟩ := hstep h
    obtain ⟨w, h₂, hw⟩ := collectingAll_runs step hstep hv
    exact ⟨w, collectingAll_cons_gives.2 ⟨v, h₁, h₂⟩, hw⟩

namespace Settled

variable {items : List Item}

/-- The signature of an item has been lowered in the larger unit. -/
theorem lowersTo (hS : Settled P items F) {item : Item} (hitem : item ∈ items) {s : Signature}
    (hs : item.signature? = some s) :
    (∀ ty ∈ s.types, P ty) ∧ ∃ f, F.function? s.name = some f ∧ F.LowersTo s f.arguments f.returnType := by
  have htypes : ∀ ty ∈ s.types, P ty := fun ty hty => hS.types item hitem ty (Item.types_of_signature? hs hty)
  exact ⟨htypes, (hS.declares s (List.mem_filterMap.2 ⟨item, hitem, hs⟩)).lowersTo hS.whole.family htypes⟩

theorem declareItem (hS : Settled P items F) {item : Item} (hitem : item ∈ items) (h : Embedded P F t) :
    ∃ t', Gives (CompilationUnit.declareItem item) t () t' ∧ Embedded P F t' := by
  have declared : ∀ {s : Signature}, item.signature? = some s →
      ∃ t', Gives (declareFunction s) t () t' ∧ Embedded P F t' := by
    intro s hs
    obtain ⟨htypes, f, hf, hl⟩ := hS.lowersTo hitem hs
    obtain ⟨arguments, result, t₁, h₁, ht₁, -⟩ := h.lowerSignature hS.whole.family hS.whole.orderly htypes hl
    obtain ⟨id, t₂, h₂, ht₂⟩ := ht₁.addFunction hS.whole.orderly (f := .declaration s.name arguments result)
      (mem_keys_of_function? hf)
    refine ⟨t₂, ?_, ht₂⟩
    simp only [declareFunction, gives_bind, gives_pure]
    exact ⟨(arguments, result), t₁, h₁, id, t₂, h₂, trivial, rfl⟩
  cases item with
  | type ty =>
    cases hS.retains _ hitem with
    | type hl =>
      obtain ⟨l, t', hrun, ht'⟩ :=
        h.lowerType hS.whole.family hS.whole.orderly (hS.types _ hitem _ (List.mem_singleton_self _)) hl
      refine ⟨t', ?_, ht'⟩
      simp only [CompilationUnit.declareItem, gives_bind, gives_pure]
      exact ⟨l, t', hrun, trivial, rfl⟩
  | function f => exact declared rfl
  | foreign s => exact declared rfl

theorem lowerItem (hS : Settled P items F) {item : Item} (hitem : item ∈ items) (h : Follows P F t) :
    ∃ t', Gives (CompilationUnit.lowerItem item) t () t' ∧ Follows P F t' ∧
      (∀ f, item = .function f → F.Reflects t' f.signature.name) ∧ ∀ n, F.Reflects t n → F.Reflects t' n := by
  cases item with
  | type ty | foreign s => exact ⟨t, gives_pure.2 ⟨rfl, rfl⟩, h, nofun, fun _ hn => hn⟩
  | function item =>
    cases hS.retains _ hitem with
    | @function _ d u u' stage run name defined =>
      obtain ⟨htypes, f, hf, hl⟩ := hS.lowersTo hitem rfl
      obtain rfl := Option.some.inj (defined.symm.trans hf)
      have hbody : ∀ ty ∈ item.body.types, P ty := fun ty hty =>
        hS.types _ hitem ty (List.mem_append_right _ hty)
      obtain ⟨arguments, result, t₁, h₁, ht₁, he₁, ha, hr⟩ :=
        h.toEmbedded.lowerSignature hS.whole.family hS.whole.orderly htypes hl
      obtain ⟨d', t₂, h₂, he₂, ht₂, hmatch⟩ :=
        ht₁.defineFunction hS.whole hbody run stage (h.announced.of_extends he₁) ha hr
      have hname : d'.name = item.signature.name := hmatch.name.symm.trans name
      have hfollows : Follows P F t₂ := ⟨ht₂, h.announced.of_extends (he₁.trans he₂)⟩
      obtain ⟨id, t₃, h₃, ht₃, hself, hkeep⟩ := hfollows.addFunction hS.whole.orderly (hname ▸ defined) hmatch
      refine ⟨t₃, ?_, ht₃, ?_, fun n hn => hkeep n (hn.extends (he₁.trans he₂))⟩
      · simp only [CompilationUnit.lowerItem, lowerFunction, gives_bind, gives_report, gives_pure]
        exact ⟨(), t, rfl, (arguments, result), t₁, h₁, d', t₂, h₂, (), t₂, rfl, id, t₃, h₃, trivial, rfl⟩
      · rintro _ ⟨⟩
        exact hname ▸ hself

theorem declaring (hS : Settled P items F) (name : String) :
    ∃ t, Gives (collectingAll CompilationUnit.declareItem items) (.empty name F.options) [] t ∧ Embedded P F t := by
  obtain ⟨t, h, ht, -⟩ := collectingAll_runs CompilationUnit.declareItem
    (Q := fun rest t => Embedded P F t ∧ rest ⊆ items)
    (fun {item rest t} ⟨ht, hsub⟩ => by
      rw [List.cons_subset] at hsub
      obtain ⟨t', hrun, ht'⟩ := hS.declareItem hsub.1 ht
      exact ⟨t', hrun, ht', hsub.2⟩)
    ⟨embedded_empty P F name, List.Subset.refl items⟩
  exact ⟨t, h, ht⟩

/-- A function of the larger unit and the one with its name after the first pass have matching signatures. -/
theorem announced (hS : Settled P items F) (ht : ∀ s ∈ items.filterMap Item.signature?, t.Declares s) :
    F.Announced t := by
  refine announced_of_declares hS.whole.family (fun s hs => ?_) hS.only hS.declares ht
  obtain ⟨item, hitem, hsig⟩ := List.mem_filterMap.1 hs
  exact (hS.lowersTo hitem hsig).1

/-- The second pass brings all functions of the larger unit that the first has left out. -/
theorem lowering (hS : Settled P items F) (h : Follows P F t)
    (hforeign : ∀ s, Item.foreign s ∈ items → F.Reflects t s.name) :
    ∃ t', Gives (collectingAll CompilationUnit.lowerItem items) t [] t' ∧ Embedded P F t' ∧
      ∀ n f, F.function? n = some f → F.Reflects t' n := by
  -- A function of the larger unit is there, or its item is still to come.
  have hstart : ∀ n f, F.function? n = some f →
      F.Reflects t n ∨ ∃ item, Item.function item ∈ items ∧ item.signature.name = n := by
    intro n f hf
    obtain ⟨s, hs, rfl⟩ := List.mem_map.1 (hS.only hf)
    obtain ⟨item, hitem, hsig⟩ := List.mem_filterMap.1 hs
    cases item with
    | type ty => cases hsig
    | function item =>
      cases hsig
      exact Or.inr ⟨item, hitem, rfl⟩
    | foreign s' =>
      cases hsig
      exact Or.inl (hforeign _ hitem)
  obtain ⟨t', hrun, ht', -, hall⟩ := collectingAll_runs CompilationUnit.lowerItem
    (Q := fun rest t => Follows P F t ∧ rest ⊆ items ∧ ∀ n f, F.function? n = some f →
      F.Reflects t n ∨ ∃ item, Item.function item ∈ rest ∧ item.signature.name = n)
    (fun {item rest t} ⟨ht, hsub, hall⟩ => by
      rw [List.cons_subset] at hsub
      obtain ⟨t', hrun, ht', hself, hkeep⟩ := hS.lowerItem hsub.1 ht
      refine ⟨t', hrun, ht', hsub.2, fun n f hf => ?_⟩
      rcases hall n f hf with hn | ⟨item', hmem, rfl⟩
      · exact Or.inl (hkeep n hn)
      · rcases List.mem_cons.1 hmem with rfl | hmem
        · exact Or.inl (hself item' rfl)
        · exact Or.inr ⟨item', hmem, rfl⟩)
    ⟨h, List.Subset.refl items, hstart⟩
  refine ⟨t', hrun, ht'.toEmbedded, fun n f hf => ?_⟩
  rcases hall n f hf with hn | ⟨_, hmem, -⟩
  · exact hn
  · cases hmem

/-- **Items that are settled can be lowered in any order**, and the functions match. -/
theorem passes {m : Module} (hS : Settled P m.items F) (hd : m.DistinctFunctions) (name : String) :
    ∃ t₁ t, Gives (collectingAll CompilationUnit.declareItem m.items) (.empty name F.options) [] t₁ ∧
      Gives (collectingAll CompilationUnit.lowerItem m.items) t₁ [] t ∧ Embedded P F t ∧
      ∀ n f, F.function? n = some f → F.Reflects t n := by
  obtain ⟨t₁, h₁, ht₁⟩ := hS.declaring name
  have hann := hS.announced (announces_of_module hd h₁).declares
  obtain ⟨t, h₂, ht, hall⟩ := hS.lowering ⟨ht₁, hann⟩ fun s hs => by
    cases hS.retains _ hs with
    | foreign declared =>
      obtain ⟨g, hg, ha, hr⟩ := hann _ _ declared
      obtain ⟨arguments, result, rfl⟩ := bodiless_of_declaring h₁ _ _ hg
      exact ⟨_, _, declared, hg, Function.matches_declaration s.name ha hr⟩
  exact ⟨t₁, t, h₁, h₂, ht, hall⟩

end Settled

end CompilationUnit

open CompilationUnit

/-! ## Texts -/

/-- Tables with the same keys have the same lines, if entries with the same key do. -/
theorem Table.perm_lines {α γ : Type} {t t' : Table α} {f g : α → γ} (hk : t.keys ⊆ t'.keys) (hk' : t'.keys ⊆ t.keys)
    (hfg : ∀ key a b, (key, a) ∈ t.entries → (key, b) ∈ t'.entries → f a = g b) :
    (t.values.map f).Perm (t'.values.map g) := by
  have hnodup : ∀ (t : Table α) (f : α → γ), (t.entries.map fun e => (e.1, f e.2)).Nodup := fun t f =>
    List.Nodup.of_map Prod.fst (by simpa [Function.comp_def] using t.nodup)
  have hincluded : ∀ {t t' : Table α} {f g : α → γ}, t.keys ⊆ t'.keys →
      (∀ key a b, (key, a) ∈ t.entries → (key, b) ∈ t'.entries → f a = g b) →
      (t.entries.map fun e => (e.1, f e.2)) ⊆ t'.entries.map fun e => (e.1, g e.2) := by
    intro t t' f g hk hfg p hp
    obtain ⟨⟨key, a⟩, ha, rfl⟩ := List.mem_map.1 hp
    obtain ⟨⟨_, b⟩, hb, rfl⟩ := List.mem_map.1 (hk (List.mem_map.2 ⟨(key, a), ha, rfl⟩))
    exact List.mem_map.2 ⟨_, hb, by rw [hfg _ a b ha hb]⟩
  have hperm : (t.entries.map fun e => (e.1, f e.2)).Perm (t'.entries.map fun e => (e.1, g e.2)) :=
    (List.perm_ext_iff_of_nodup (hnodup t f) (hnodup t' g)).2 fun p =>
      ⟨fun hp => hincluded hk hfg hp,
        fun hp => hincluded hk' (fun key b a hb ha => (hfg key a b ha hb).symm) hp⟩
  simpa [values, Function.comp_def] using hperm.map Prod.snd

namespace CompilationUnit

variable {P : Ty → Prop} {F t : CompilationUnit}

theorem functionText_of_reflects (halike : F.Alike t) (hkeys : t.functions.keys ⊆ F.functions.keys)
    (hall : ∀ n f, F.function? n = some f → F.Reflects t n) (name : String) :
    (F.function? name).map F.functionText = (t.function? name).map t.functionText := by
  cases hf : F.function? name with
  | none =>
    have hn : t.function? name = none :=
      Table.get?_eq_none_iff.2 fun hmem => Table.get?_eq_none_iff.1 hf (hkeys hmem)
    rw [hn, Option.map_none, Option.map_none]
  | some f =>
    obtain ⟨f', g, hf', hg, hfg⟩ := hall name f hf
    obtain rfl := Option.some.inj (hf.symm.trans hf')
    rw [hg, Option.map_some, Option.map_some, hfg.text_eq halike]

/-- A literal has one line, whatever the unit. -/
theorem Orderly.globalLine_eq (hF : Orderly P F) (ht : Orderly P t) (ho : t.options = F.options) {content : String}
    {g g' : Global} (hg : (content, g) ∈ F.globals.entries) (hg' : (content, g') ∈ t.globals.entries) :
    F.globalLine g = t.globalLine g' := by
  rw [hF.literals content g hg, ht.literals content g' hg', ho]
  rfl

end CompilationUnit

/-! ## Lowering by passes -/

/-- What lowering answers if the passes report the errors and end in the unit. -/
def Module.answer (m : Module) (errors : List Error) (u : CompilationUnit) : Except Error CompilationUnit :=
  if errors.isEmpty then .ok u else .error (.failed m.name errors)

theorem Module.answer_eq_ok_iff {m : Module} {errors : List Error} {u : CompilationUnit} :
    (∃ v, m.answer errors u = .ok v) ↔ errors = [] := by
  cases errors <;> simp [answer]

theorem Module.answer_of_ne_nil {m : Module} {errors : List Error} {u : CompilationUnit} (h : errors ≠ []) :
    m.answer errors u = .error (.failed m.name errors) := by
  cases errors with
  | nil => exact absurd rfl h
  | cons e es => rfl

theorem Module.lower_of_collected {m : Module} {options : Options} {u u' : CompilationUnit} {errors : List Error}
    (h₁ : Gives (collectingAll declareItem m.items) (.empty m.name options) [] u)
    (h₂ : Gives (collectingAll lowerItem m.items) u errors u') :
    m.lower options = m.answer errors u' := by
  have hpasses : Gives (passes m) (.empty m.name options) errors u' := by
    simp only [passes, gives_report_bind, gives_bind (x := collectingAll _ _), gives_pure]
    exact ⟨[], u, h₁, errors, u', h₂, rfl, rfl⟩
  have hrun := lowerProgram_run m m.name options
  simp only [hpasses.1, hpasses.2] at hrun
  show (lowerProgram m (.empty m.name options)).result.map
    (fun _ => (lowerProgram m (.empty m.name options)).state) = _
  rw [hrun]
  cases errors <;> rfl

theorem Module.lower_of_passes {m : Module} {options : Options} {u u' : CompilationUnit}
    (h₁ : Gives (collectingAll declareItem m.items) (.empty m.name options) [] u)
    (h₂ : Gives (collectingAll lowerItem m.items) u [] u') : m.lower options = .ok u' := Module.lower_of_collected h₁ h₂

/-- Lowering in one order can be followed in every other. -/
theorem Module.lower_followed {P : Ty → Prop} (hP : Ty.Family P) {m m' : Module} (hp : m.items.Perm m'.items)
    (hd : m.DistinctFunctions) (hi : ∀ item ∈ m.items, ∀ ty ∈ item.types, P ty) {options : Options}
    {u : CompilationUnit} (h : m.lower options = .ok u) :
    ∃ u', m'.lower options = .ok u' ∧ Orderly P u ∧ Embedded P u u' ∧
      ∀ n f, u.function? n = some f → u.Reflects u' n := by
  obtain ⟨u₁, h₁, h₂⟩ := lowerProgram_gives (Module.lower_gives h)
  obtain ⟨hS, rfl⟩ := settled_of_passes hP hd hi h₁ h₂
  obtain ⟨t₁, t, h₁', h₂', ht, hall⟩ := (hS.of_perm hp).passes (hd.of_perm hp) m'.name
  exact ⟨t, Module.lower_of_passes h₁' h₂', hS.whole.orderly, ht, hall⟩

/-- **The order of the items does not matter.**  If no two functions of a module have the same name, and no two types
that occur in it the same key, then lowering succeeds for all orders of the items or for none, and units that come of
two orders have the same texts: function by function, and up to the order of their lines for typedefs and literals. -/
theorem Module.lower_perm {m m' : Module} (hp : m.items.Perm m'.items) (hd : m.DistinctFunctions)
    (hk : Ty.DistinctKeys m.types) (options : Options) :
    ((∃ u, m.lower options = .ok u) ↔ ∃ u', m'.lower options = .ok u') ∧
    ∀ u u', m.lower options = .ok u → m'.lower options = .ok u' →
      (∀ name, (u.function? name).map u.functionText = (u'.function? name).map u'.functionText) ∧
      (u.typedefs.values.map u.typedefLine).Perm (u'.typedefs.values.map u'.typedefLine) ∧
      (u.globals.values.map u.globalLine).Perm (u'.globals.values.map u'.globalLine) := by
  have hP := hk.family
  have hi : ∀ item ∈ m.items, ∀ ty ∈ item.types, ty ∈ Ty.partsList m.types := fun item hitem ty hty =>
    Ty.parts_subset_partsList (List.mem_flatMap.2 ⟨item, hitem, hty⟩) (Ty.self_mem_parts ty)
  have hi' : ∀ item ∈ m'.items, ∀ ty ∈ item.types, ty ∈ Ty.partsList m.types := fun item hitem =>
    hi item (hp.mem_iff.2 hitem)
  refine ⟨⟨fun ⟨u, h⟩ => ?_, fun ⟨u', h⟩ => ?_⟩, fun u u' h h' => ?_⟩
  · obtain ⟨u', h', -⟩ := Module.lower_followed hP hp hd hi h
    exact ⟨u', h'⟩
  · obtain ⟨u, h, -⟩ := Module.lower_followed hP hp.symm (hd.of_perm hp) hi' h
    exact ⟨u, h⟩
  · -- Each of the two units is embedded in the other.
    obtain ⟨_, h₁, hu, hemb, hall⟩ := Module.lower_followed hP hp hd hi h
    obtain rfl := Except.ok.inj (h'.symm.trans h₁)
    obtain ⟨_, h₂, hu', hemb', -⟩ := Module.lower_followed hP hp.symm (hd.of_perm hp) hi' h'
    obtain rfl := Except.ok.inj (h.symm.trans h₂)
    have halike := hu.alike hP hu'
    refine ⟨functionText_of_reflects halike hemb.functions hall, ?_, ?_⟩
    · exact Table.perm_lines hemb'.typedefs hemb.typedefs fun key d d' hd hd' =>
        (halike key d d' hd hd').line_eq halike
    · exact Table.perm_lines hemb'.globals hemb.globals fun _ _ _ hg hg' =>
        hu.globalLine_eq hu' hemb.options hg hg'

namespace Sample

/-- `fn tell(text: string)`, defined elsewhere. -/
def tell : Signature := ⟨"tell", [⟨"text", .elementary .string, default⟩], none, default⟩

/-- `fn name(value: ty) { tell(content) }` -/
def teller (name : String) (ty : Ty) (content : String) : FunctionItem :=
  .of ⟨name, [⟨"value", ty, default⟩], none, default⟩
    (.ofStatements [.effect (.ofCall "tell" [.text content (.elementary .string) default] tell.ty default)] default)

/-- Two functions with literals, the parameter of one being a member of that of the other, and what they call. -/
def tellers : Module :=
  ⟨"sample", [.function (teller "greet" entry "hello"), .foreign tell, .function (teller "part" either "bye")], .empty⟩

/-- The same from the last item to the first. -/
def tellersReversed : Module := { tellers with items := tellers.items.reverse }

/-- In the two orders the literals have different handles, and the lines are the same. -/
theorem tellers_lower_alike :
    tellers.DistinctFunctions ∧ Ty.DistinctKeys tellers.types ∧
    ∃ u u', tellers.lower {} = .ok u ∧ tellersReversed.lower {} = .ok u' ∧
      u.globals.keys = ["hello", "bye"] ∧ u'.globals.keys = ["bye", "hello"] ∧
      (∀ name, (u.function? name).map u.functionText = (u'.function? name).map u'.functionText) ∧
      (u.typedefs.values.map u.typedefLine).Perm (u'.typedefs.values.map u'.typedefLine) ∧
      (u.globals.values.map u.globalLine).Perm (u'.globals.values.map u'.globalLine) := by
  have hd : tellers.DistinctFunctions := by decide
  have hk : Ty.DistinctKeys tellers.types := by decide
  have hp : tellers.items.Perm tellersReversed.items := (List.reverse_perm _).symm
  have hrun : (tellers.lower {}).toOption.map (fun u => u.globals.keys) = some ["hello", "bye"] := by decide +kernel
  have hrun' : (tellersReversed.lower {}).toOption.map (fun u => u.globals.keys) = some ["bye", "hello"] := by
    decide +kernel
  obtain ⟨u, hu, hkeys⟩ := Option.map_eq_some_iff.1 hrun
  obtain ⟨u', hu', hkeys'⟩ := Option.map_eq_some_iff.1 hrun'
  have hlower := eq_ok_of_toOption hu
  have hlower' := eq_ok_of_toOption hu'
  exact ⟨hd, hk, u, u', hlower, hlower', hkeys, hkeys', (Module.lower_perm hp hd hk {}).2 u u' hlower hlower'⟩

end Sample

end BlockForm
