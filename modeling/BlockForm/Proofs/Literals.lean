import BlockForm.Proofs.Acyclicity
import BlockForm.Proofs.Effects
import BlockForm.Proofs.Isolation
import BlockForm.Proofs.Settled

/-!
# BlockForm.Proofs.Literals — the literal table is exact

A string is interned in the unit, where contents are kept apart, and has a value in each function that mentions it, made
on first use and remembered by its handle.  `Function.Quotes` ties the two tables together while a function is lowered:
its literals refer to literals of the unit, none of them twice, and whatever the unit has gained since lowering of the
function began has a value in it.  So the unit holds just the strings that its functions mention
(`Module.lower_literalsExact`), unless a definition that mentions one is replaced by another of the same name.
-/

namespace BlockForm

open Action

namespace Function

variable {f g : Function} {v w : ValueId} {id : GlobalId} {c : String}

/-- The value stands for the literal of the unit with the given handle, whose content is `c`. -/
def IsLiteral (f : Function) (v : ValueId) (id : GlobalId) (c : String) : Prop :=
  ∃ x, f.value? v = some x ∧ x.kind = .literal id c

theorem IsLiteral.mono (h : f.IsLiteral v id c) (hkeep : ∀ {w x}, f.value? w = some x → g.value? w = some x) :
    g.IsLiteral v id c ∧ g.idText v = f.idText v := by
  obtain ⟨x, hx, hk⟩ := h
  exact ⟨⟨x, hkeep hx, hk⟩, by rw [idText, idText, hx, hkeep hx]⟩

/-- The literals of the function are literals of `u`, each has one value, and those that `u` has more than `u₀` have
one. -/
structure Quotes (f : Function) (u₀ u : CompilationUnit) : Prop where
  refers : ∀ {v id c}, f.IsLiteral v id c → ∃ l, u.globalAt? id = some l ∧ l.content = c ∧ f.idText v = l.name
  remembered : ∀ {v id c}, f.IsLiteral v id c → f.literals.lookup id = some v
  found : ∀ {v id}, f.literals.lookup id = some v → ∃ c, f.IsLiteral v id c
  used : ∀ {id l}, u.globalAt? id = some l → u₀.globalAt? id = some l ∨ ∃ v, f.IsLiteral v id l.content

namespace Quotes

variable {u₀ u u' : CompilationUnit}

/-- A function that gains no literal. -/
theorem keep (h : f.Quotes u₀ u) (hkeep : ∀ {w x}, f.value? w = some x → g.value? w = some x)
    (hback : ∀ {v id c}, g.IsLiteral v id c → f.IsLiteral v id c) (hl : g.literals = f.literals) : g.Quotes u₀ u where
  refers := by
    intro v id c hv
    obtain ⟨l, hid, hc, hname⟩ := h.refers (hback hv)
    exact ⟨l, hid, hc, ((hback hv).mono hkeep).2.trans hname⟩
  remembered := by
    intro v id c hv
    rw [hl]
    exact h.remembered (hback hv)
  found := by
    intro v id hv
    rw [hl] at hv
    obtain ⟨c, hc⟩ := h.found hv
    exact ⟨c, (hc.mono hkeep).1⟩
  used := by
    intro id l hid
    rcases h.used hid with hold | ⟨v, hv⟩
    · exact Or.inl hold
    · exact Or.inr ⟨v, (hv.mono hkeep).1⟩

/-- A value is added that is no literal. -/
theorem push (h : f.Quotes u₀ u) {x : Value} (hv : g.values = f.values.push x) (hx : ∀ id c, x.kind ≠ .literal id c)
    (hl : g.literals = f.literals) : g.Quotes u₀ u := by
  have hvalue : ∀ w, g.value? w = if w = f.nextValue then some x else f.value? w := fun w => by
    rw [value?, hv, getElem?_push_handle]
    rfl
  refine h.keep (fun {w y} hy => ?_) ?_ hl
  · have hne : w ≠ f.nextValue := by
      rintro rfl
      exact Nat.lt_irrefl _ (value?_lt hy)
    rw [hvalue, if_neg hne, hy]
  · rintro v id c ⟨y, hy, hk⟩
    rw [hvalue] at hy
    split at hy
    · cases hy
      exact absurd hk (hx id c)
    · exact ⟨y, hy, hk⟩

theorem congr (h : f.Quotes u₀ u) (hv : g.values = f.values) (hl : g.literals = f.literals) : g.Quotes u₀ u := by
  have hvalue : ∀ w, g.value? w = f.value? w := fun w => by rw [value?, value?, hv]
  refine h.keep (fun {w y} hy => (hvalue w).trans hy) ?_ hl
  rintro v id c ⟨y, hy, hk⟩
  exact ⟨y, (hvalue v).symm.trans hy, hk⟩

/-- Only the literals of the unit matter. -/
theorem of_globals (h : f.Quotes u₀ u) (hg : u'.globals = u.globals) : f.Quotes u₀ u' := by
  have hsame : ∀ id, u'.globalAt? id = u.globalAt? id := fun id => by
    rw [CompilationUnit.globalAt?, CompilationUnit.globalAt?, hg]
  refine ⟨fun {v id c} hv => ?_, h.remembered, h.found, fun {id l} hl => h.used ((hsame id).symm.trans hl)⟩
  obtain ⟨l, hid, hrest⟩ := h.refers hv
  exact ⟨l, (hsame id).trans hid, hrest⟩

/-- Each literal has one value. -/
theorem unique (h : f.Quotes u₀ u) {d : String} (hv : f.IsLiteral v id c) (hw : f.IsLiteral w id d) : v = w :=
  Option.some.inj ((h.remembered hv).symm.trans (h.remembered hw))

/-- The unit may gain literals. -/
theorem refers_extends (h : f.Quotes u₀ u) (he : u.Extends u') (hv : f.IsLiteral v id c) :
    ∃ l, u'.globalAt? id = some l ∧ l.content = c ∧ f.idText v = l.name := by
  obtain ⟨l, hid, hrest⟩ := h.refers hv
  exact ⟨l, Table.at?_of_prefix he.globals hid, hrest⟩

/-- **The step of a literal**: interned in the unit and given a value at once, so that none is left over. -/
theorem literal (h : f.Quotes u₀ u) {content : String} {l : Global}
    (hu : Gives (CompilationUnit.internLiteral content) u id u') (hl : u'.globalAt? id = some l)
    (hf : Gives (Function.literal id l) f v g) : g.Quotes u₀ u' := by
  have he := CompilationUnit.extends_of_internLiteral hu
  -- apart from the literal itself, the unit has what it had
  have hold : ∀ {i k}, i ≠ id → u'.globalAt? i = some k → u.globalAt? i = some k := by
    intro i k hi hk
    rcases CompilationUnit.internLiteral_gives hu with ⟨-, rfl⟩ | ⟨hnew, -, -, rfl, rfl⟩
    · exact hk
    · have hk' : (u.globals.insert content _).at? i.index = some k := hk
      rw [Table.at?_insert_of_not_mem hnew, if_neg hi] at hk'
      exact hk'
  rcases Function.literal_gives hf with ⟨hfound, rfl⟩ | ⟨hnone, -, rfl, rfl⟩
  · refine ⟨h.refers_extends he, h.remembered, h.found, fun {i k} hk => ?_⟩
    by_cases hi : i = id
    · subst hi
      obtain ⟨c, hc⟩ := h.found hfound
      obtain ⟨l', hl', rfl, -⟩ := h.refers_extends he hc
      obtain rfl := Option.some.inj (hk.symm.trans hl')
      exact Or.inr ⟨v, hc⟩
    · exact h.used (hold hi hk)
  · have hkeep : ∀ {w x}, f.value? w = some x →
        (f.withLiteral id ⟨.literal id l.content, some l.ty, l.name⟩).value? w = some x :=
      fun hx => (grows_withLiteral id _).value? hx
    have hself : (f.withLiteral id ⟨.literal id l.content, some l.ty, l.name⟩).value? f.nextValue =
        some ⟨.literal id l.content, some l.ty, l.name⟩ :=
      (value?_withValue _ _).trans (if_pos rfl)
    have hcases : ∀ {w i c}, (f.withLiteral id ⟨.literal id l.content, some l.ty, l.name⟩).IsLiteral w i c →
        (w = f.nextValue ∧ i = id ∧ c = l.content) ∨ f.IsLiteral w i c := by
      rintro w i c ⟨y, hy, hk⟩
      have hy' : (f.withValue ⟨.literal id l.content, some l.ty, l.name⟩).value? w = some y := hy
      rw [value?_withValue] at hy'
      split at hy'
      · next hw =>
        cases hy'
        cases hk
        exact Or.inl ⟨hw, rfl, rfl⟩
      · exact Or.inr ⟨y, hy', hk⟩
    have hlookup : ∀ i, (f.withLiteral id ⟨.literal id l.content, some l.ty, l.name⟩).literals.lookup i =
        (f.literals.lookup i).or (if i = id then some f.nextValue else none) := by
      intro i
      show (f.literals ++ [(id, f.nextValue)]).lookup i = _
      rw [List.lookup_append]
      by_cases hi : i = id
      · simp [hi]
      · have hne : (i == id) = false := by simpa using hi
        simp [List.lookup_cons, hi, hne]
    refine ⟨?_, ?_, ?_, ?_⟩
    · intro w i c hw
      rcases hcases hw with ⟨rfl, rfl, rfl⟩ | hw
      · exact ⟨l, hl, rfl, by rw [idText, hself]; rfl⟩
      · obtain ⟨l', hl', hc, hname⟩ := h.refers_extends he hw
        exact ⟨l', hl', hc, (hw.mono hkeep).2.trans hname⟩
    · intro w i c hw
      rw [hlookup]
      rcases hcases hw with ⟨rfl, rfl, rfl⟩ | hw
      · rw [hnone, if_pos rfl]
        rfl
      · rw [h.remembered hw]
        rfl
    · intro w i hw
      rw [hlookup] at hw
      cases hi : f.literals.lookup i with
      | some w' =>
        rw [hi] at hw
        cases hw
        obtain ⟨c, hc⟩ := h.found hi
        exact ⟨c, (hc.mono hkeep).1⟩
      | none =>
        rw [hi] at hw
        by_cases hid : i = id
        · subst hid
          rw [if_pos rfl] at hw
          cases hw
          exact ⟨l.content, _, hself, rfl⟩
        · rw [if_neg hid] at hw
          cases hw
    · intro i k hk
      by_cases hi : i = id
      · subst hi
        obtain rfl := Option.some.inj (hk.symm.trans hl)
        exact Or.inr ⟨f.nextValue, _, hself, rfl⟩
      · rcases h.used (hold hi hk) with hold | ⟨w, hw⟩
        · exact Or.inl hold
        · exact Or.inr ⟨w, (hw.mono hkeep).1⟩

end Quotes

/-- A function that has only its arguments and its first blocks mentions no literal. -/
theorem Fresh.quotes_opened {tys : List LoweredType} (hf : f.Fresh tys) (u : CompilationUnit) :
    f.opened.Quotes u u := by
  have hf₀ : f.Quotes u u := by
    have hnone : ∀ {v id c}, ¬ f.IsLiteral v id c := by
      rintro v id c ⟨x, hx, hk⟩
      rcases hf.only hx with rfl | ⟨i, ty, hk', -⟩
      · cases hk
      · rw [hk'] at hk
        cases hk
    refine ⟨fun hv => absurd hv hnone, fun hv => absurd hv hnone, fun {v id} hv => ?_, fun hl => Or.inl hl⟩
    rw [hf.literals] at hv
    cases hv
  have hf₁ : (f.withLabel.place f.nextBlock).Quotes u u :=
    hf₀.push rfl nofun rfl
  exact hf₁.push rfl nofun rfl

end Function

/-- **Every effect of lowering keeps the two tables of literals together.** -/
theorem LoweringState.Effect.quotes {u₀ : CompilationUnit} {s s' : LoweringState} (h : Effect s s')
    (hs : s.function.Quotes u₀ s.unit) : s'.function.Quotes u₀ s'.unit := by
  cases h with
  | scopes => exact hs
  | lowerType h => exact hs.of_globals (CompilationUnit.globals_of_lowerType h)
  | literal hu hl hf => exact hs.literal hu hl hf
  | constant => exact hs.push rfl nofun rfl
  | newBlock => exact hs.push rfl nofun rfl
  | startBlock | leave | setReturnSlot | setReturn => exact hs.congr rfl rfl
  | emit hx hopen op ty =>
    cases ty with
    | none => exact hs.congr rfl rfl
    | some ty => exact hs.push rfl nofun rfl

namespace CompilationUnit

variable {u u' : CompilationUnit}

/-! ## Functions one after another -/

theorem defineFunction_quotes {item : FunctionItem} {arguments : List LoweredType} {result : LoweredType} {d : Function}
    (h : Gives (defineFunction item arguments result) u d u') :
    d.Quotes u u' ∧ d.name = item.signature.name ∧ u.Extends u' := by
  obtain ⟨f, s', hf, hn, heffects, rfl, rfl⟩ := defineFunction_effects h
  refine ⟨?_, hn, heffects.extends⟩
  exact heffects.keeps (P := fun t => t.function.Quotes u t.unit) (fun he ht => he.quotes ht) (hf.quotes_opened u)

theorem lowerParams_extends {params : List Param} :
    ∀ {u tys u'}, Gives (lowerParams params) u tys u' → u.Extends u' ∧ u'.globals = u.globals := by
  induction params with
  | nil =>
    intro u tys u' h
    obtain ⟨-, rfl⟩ := gives_pure.1 h
    exact ⟨.refl u, rfl⟩
  | cons param params ih =>
    intro u tys u' h
    simp only [lowerParams, gives_bind, gives_pure] at h
    obtain ⟨ty, u₁, h₁, rest, _, h₂, -, rfl⟩ := h
    obtain ⟨he, hg⟩ := ih h₂
    exact ⟨(extends_of_lowerType h₁).trans he, hg.trans (globals_of_lowerType h₁)⟩

/-- Signatures mention no literals. -/
theorem lowerSignature_extends {s : Signature} {p : List LoweredType × LoweredType}
    (h : Gives (lowerSignature s) u p u') : u.Extends u' ∧ u'.globals = u.globals := by
  simp only [lowerSignature, gives_bind, gives_pure] at h
  obtain ⟨args, u₁, h₁, r, _, h₂, -, rfl⟩ := h
  obtain ⟨he, hg⟩ := lowerParams_extends h₁
  exact ⟨he.trans (extends_of_lowerType h₂), (globals_of_lowerType h₂).trans hg⟩

/-- The literals of the functions are literals of the unit, and those of the unit are literals of some function. -/
structure Mentioned (u : CompilationUnit) : Prop where
  refers : ∀ {name f v id c}, u.function? name = some f → f.IsLiteral v id c →
    ∃ l, u.globalAt? id = some l ∧ l.content = c ∧ f.idText v = l.name
  unique : ∀ {name f v w id c d}, u.function? name = some f → f.IsLiteral v id c → f.IsLiteral w id d → v = w
  used : ∀ {id l}, u.globalAt? id = some l → ∃ name f v, u.function? name = some f ∧ f.IsLiteral v id l.content

/-- **The step of a function**: its definition mentions what the unit gains by it, and takes the place of a declaration,
which mentions nothing. -/
theorem Mentioned.lowerFunction (h : u.Mentioned) {item : FunctionItem}
    (hbare : ∀ f, u.function? item.signature.name = some f → ∀ v id c, ¬ f.IsLiteral v id c)
    (hg : Gives (lowerFunction item) u () u') :
    u'.Mentioned ∧ ∀ name, name ≠ item.signature.name → u'.function? name = u.function? name := by
  obtain ⟨arguments, result, u₁, d, u₂, id, h₁, h₂, h₃⟩ := lowerFunction_gives hg
  obtain ⟨he₁, hglobals₁⟩ := lowerSignature_extends h₁
  obtain ⟨hquotes, hname, he₂⟩ := defineFunction_quotes h₂
  have hglobal : ∀ i, u'.globalAt? i = u₂.globalAt? i := fun i => by
    rw [globalAt?, globalAt?, (addFunction_gives h₃).2.2]
  have hself : u'.function? item.signature.name = some d := by
    rw [function?_of_addFunction h₃, if_pos hname.symm]
  have hother : ∀ name, name ≠ item.signature.name → u'.function? name = u.function? name := by
    intro name hne
    rw [function?_of_addFunction h₃, if_neg (by rw [hname]; exact hne), function?, function?, he₂.functions,
      he₁.functions]
  -- a function of the new unit is the definition, or one of the old unit under another name
  have hcases : ∀ {name f}, u'.function? name = some f → f = d ∨ u.function? name = some f := by
    intro name f hf
    by_cases hne : name = item.signature.name
    · rw [hne, hself] at hf
      exact Or.inl (Option.some.inj hf).symm
    · rw [hother name hne] at hf
      exact Or.inr hf
  refine ⟨⟨?_, ?_, ?_⟩, hother⟩
  · intro name f v i c hf hv
    rw [hglobal]
    rcases hcases hf with rfl | hf
    · exact hquotes.refers hv
    · obtain ⟨l, hl, hrest⟩ := h.refers hf hv
      exact ⟨l, Table.at?_of_prefix (he₁.trans he₂).globals hl, hrest⟩
  · intro name f v w i c c' hf hv hw
    rcases hcases hf with rfl | hf
    · exact hquotes.unique hv hw
    · exact h.unique hf hv hw
  · intro i l hl
    rw [hglobal] at hl
    rcases hquotes.used hl with hold | ⟨v, hv⟩
    · rw [globalAt?, hglobals₁] at hold
      obtain ⟨name, f, v, hf, hv⟩ := h.used hold
      have hne : name ≠ item.signature.name := by
        rintro rfl
        exact hbare f hf v i _ hv
      exact ⟨name, f, v, (hother name hne).trans hf, hv⟩
    · exact ⟨item.signature.name, d, v, hself, hv⟩

/-- The second pass, each of whose functions takes the place of one that mentions nothing. -/
theorem Mentioned.lowering (items : List Item) :
    ∀ {u : CompilationUnit}, ((items.filterMap Item.function?).map fun f => f.signature.name).Nodup → u.Mentioned →
      (∀ item ∈ items.filterMap Item.function?, ∀ f, u.function? item.signature.name = some f →
        ∀ v id c, ¬ f.IsLiteral v id c) →
      Gives (collectingAll lowerItem items) u [] u' → u'.Mentioned := by
  induction items with
  | nil =>
    intro u _ hu _ h
    obtain ⟨-, rfl⟩ := gives_pure.1 h
    exact hu
  | cons item items ih =>
    intro u hn hu hbare h
    obtain ⟨v, h₁, h₂⟩ := collectingAll_cons_gives.1 h
    cases item with
    | type t | foreign s =>
      obtain ⟨-, rfl⟩ := gives_pure.1 h₁
      exact ih hn hu hbare h₂
    | function item =>
      obtain ⟨hfirst, hn⟩ := List.nodup_cons.1 hn
      obtain ⟨hv, hother⟩ := hu.lowerFunction (hbare item (List.mem_cons_self ..)) h₁
      refine ih hn hv (fun item' hitem' f hf => ?_) h₂
      have hne : item'.signature.name ≠ item.signature.name := fun heq =>
        hfirst (List.mem_map.2 ⟨item', hitem', heq⟩)
      rw [hother _ hne] at hf
      exact hbare item' (List.mem_cons_of_mem _ hitem') f hf

theorem globals_of_declareItem {item : Item} (h : Gives (declareItem item) u () u') : u'.globals = u.globals := by
  have declared : ∀ {s : Signature}, Gives (declareFunction s) u () u' → u'.globals = u.globals := by
    intro s h
    obtain ⟨arguments, result, u₁, id, h₁, h₂⟩ := declareFunction_gives h
    exact (addFunction_gives h₂).2.2.trans (lowerSignature_extends h₁).2
  cases item with
  | type t =>
    simp only [declareItem, gives_bind, gives_pure] at h
    obtain ⟨l, _, hl, -, rfl⟩ := h
    exact globals_of_lowerType hl
  | function f => exact declared h
  | foreign s => exact declared h

theorem Bodiless.not_isLiteral (h : u.Bodiless) {name : String} {f : Function} (hf : u.function? name = some f)
    (v : ValueId) (id : GlobalId) (c : String) : ¬ f.IsLiteral v id c := by
  obtain ⟨arguments, result, rfl⟩ := h name f hf
  rintro ⟨x, hx, hk⟩
  have hmem : x ∈ #[Value.nil] := Array.mem_of_getElem? hx
  obtain rfl : x = .nil := by simpa using hmem
  cases hk

/-- **Both passes leave the literals that the functions mention.** -/
theorem mentioned_of_passes {items : List Item} {name : String} {options : Options} {u₁ : CompilationUnit}
    (hn : ((items.filterMap Item.function?).map fun f => f.signature.name).Nodup)
    (h₁ : Gives (collectingAll declareItem items) (.empty name options) [] u₁)
    (h₂ : Gives (collectingAll lowerItem items) u₁ [] u) : u.Mentioned := by
  have hbodiless := bodiless_of_declaring h₁
  have hglobals : u₁.globals = .empty :=
    collectingAll_keeps (P := fun v => v.globals = .empty) (fun _ hg hv => (globals_of_declareItem hg).trans hv) h₁ rfl
  refine Mentioned.lowering items hn ⟨?_, ?_, ?_⟩ (fun item _ f hf => hbodiless.not_isLiteral hf) h₂
  · intro n f v id c hf hv
    exact absurd hv (hbodiless.not_isLiteral hf v id c)
  · intro n f v w id c d hf hv
    exact absurd hv (hbodiless.not_isLiteral hf v id c)
  · intro id l hl
    rw [globalAt?, hglobals] at hl
    cases hl

/-! ## The table -/

/-- The literals of the unit and those of its functions are the same strings. -/
structure LiteralsExact (u : CompilationUnit) : Prop where
  /-- No two literals of the unit have the same content, or the same name. -/
  contents : (u.globals.values.map Global.content).Nodup
  names : (u.globals.values.map Global.name).Nodup
  /-- A literal of a function is one of the unit, with its content and under its name. -/
  refers : ∀ f ∈ u.functions.values, ∀ {v id c}, f.IsLiteral v id c →
    ∃ l, u.globalAt? id = some l ∧ l.content = c ∧ f.idText v = l.name
  /-- A function has one value for a literal of the unit at most. -/
  unique : ∀ f ∈ u.functions.values, ∀ {v w id c d}, f.IsLiteral v id c → f.IsLiteral w id d → v = w
  /-- Every literal of the unit is mentioned, and no other string is. -/
  exact : ∀ c, c ∈ u.globals.values.map Global.content ↔ ∃ f ∈ u.functions.values, ∃ v id, f.IsLiteral v id c

theorem Indexed.contents_eq (h : u.Indexed) : u.globals.values.map Global.content = u.globals.keys := by
  rw [Table.values, Table.keys, List.map_map]
  exact List.map_congr_left fun e he => h.globalKeys he

theorem mem_globals {l : Global} : l ∈ u.globals.values ↔ ∃ id, u.globalAt? id = some l := by
  rw [Table.values, List.mem_iff_getElem?]
  constructor
  · rintro ⟨i, hi⟩
    exact ⟨⟨i⟩, by rw [globalAt?, Table.at?, ← List.getElem?_map, hi]⟩
  · rintro ⟨id, hid⟩
    exact ⟨id.index, by rw [List.getElem?_map]; exact hid⟩

theorem mem_functions {f : Function} : f ∈ u.functions.values ↔ ∃ name, u.function? name = some f := by
  simp only [function?, Table.get?_eq_some_iff, Table.values, List.mem_map, Prod.exists, exists_eq_right]

theorem Indexed.names_nodup (h : u.Indexed) : (u.globals.values.map Global.name).Nodup := by
  have hvalues : u.globals.values.Nodup := List.Nodup.of_map Global.content (by
    rw [h.contents_eq]
    exact u.globals.nodup)
  refine hvalues.map_on fun l hl k hk hname => ?_
  obtain ⟨i, hi⟩ := mem_globals.1 hl
  obtain ⟨j, hj⟩ := mem_globals.1 hk
  have hni : u.nameOf? (.global i) = some l.name := by rw [nameOf?, hi]; rfl
  have hnj : u.nameOf? (.global j) = some l.name := by rw [nameOf?, hj, hname]; rfl
  obtain rfl := Object.global.inj (h.distinct hni hnj)
  exact Option.some.inj (hi.symm.trans hj)

theorem Mentioned.literalsExact (h : u.Mentioned) (hi : u.Indexed) : u.LiteralsExact where
  contents := by
    rw [hi.contents_eq]
    exact u.globals.nodup
  names := hi.names_nodup
  refers := by
    intro f hf v id c hv
    obtain ⟨name, hname⟩ := mem_functions.1 hf
    exact h.refers hname hv
  unique := by
    intro f hf v w id c d hv hw
    obtain ⟨name, hname⟩ := mem_functions.1 hf
    exact h.unique hname hv hw
  exact := by
    intro c
    rw [List.mem_map]
    constructor
    · rintro ⟨l, hl, rfl⟩
      obtain ⟨id, hid⟩ := mem_globals.1 hl
      obtain ⟨name, f, v, hf, hv⟩ := h.used hid
      exact ⟨f, mem_functions.2 ⟨name, hf⟩, v, id, hv⟩
    · rintro ⟨f, hf, v, id, hv⟩
      obtain ⟨name, hname⟩ := mem_functions.1 hf
      obtain ⟨l, hl, hc, -⟩ := h.refers hname hv
      exact ⟨l, mem_globals.2 ⟨id, hl⟩, hc⟩

end CompilationUnit

/-- The names of the unit that a module is lowered to are in order. -/
theorem Module.lower_indexed {m : Module} {options : Options} {u : CompilationUnit} (h : m.lower options = .ok u) :
    u.Indexed := by
  have hreach := CompilationUnit.additive_lowerProgram m (.empty m.name options)
  rw [(Module.lower_gives h).2] at hreach
  exact hreach.keeps (fun a v _ hv => hv.perform a) (CompilationUnit.indexed_empty _ _)

/-- **The literal table is exact.**  If no two functions with a body have the same name, a lowered unit holds just the
strings that its functions mention, each once and under a name of its own; and a function refers to each of them by one
value at most, which has the content and the name of the literal. -/
theorem Module.lower_literalsExact {m : Module} {options : Options} {u : CompilationUnit}
    (hd : (m.functionItems.map fun f => f.signature.name).Nodup) (h : m.lower options = .ok u) : u.LiteralsExact := by
  obtain ⟨u₁, h₁, h₂⟩ := CompilationUnit.lowerProgram_gives (Module.lower_gives h)
  exact (CompilationUnit.mentioned_of_passes hd h₁ h₂).literalsExact (Module.lower_indexed h)

namespace Sample

/-- `fn greet(s: string)`, declared only -/
def greet : Signature := ⟨"greet", [⟨"s", .elementary .string, default⟩], none, default⟩

/-- `fn name { greet(text); greet(text) }` for each of the texts -/
def greeting (name : String) (texts : List String) : FunctionItem :=
  .of ⟨name, [], none, default⟩ (.ofStatements (texts.map fun text =>
    .effect (.call "greet" [.ofText text default] greet.ty false .nil default)) default)

/-- Two functions that share one of three strings, and one that repeats it. -/
def greetings : Module :=
  ⟨"sample", [.foreign greet, .function (greeting "both" ["hello", "bye", "hello"]),
    .function (greeting "other" ["hello", "again"])], .empty⟩

/-- Three strings are interned, and five uses come to four values. -/
theorem greetings_literalsExact :
    ∃ u, (greetings.functionItems.map fun f => f.signature.name).Nodup ∧ greetings.lower {} = .ok u ∧
      u.globals.values.map Global.content = ["hello", "bye", "again"] ∧
      u.functions.values.map (fun f => f.literals.length) = [0, 2, 2] ∧ u.LiteralsExact := by
  have hd : (greetings.functionItems.map fun f => f.signature.name).Nodup := by decide
  have hrun : (greetings.lower {}).toOption.any (fun u =>
      u.globals.values.map Global.content == ["hello", "bye", "again"] &&
        u.functions.values.map (fun f => f.literals.length) == [0, 2, 2]) = true := by
    decide +kernel
  obtain ⟨u, hu, hdecided⟩ := (Option.any_eq_true _ _).1 hrun
  obtain ⟨hcontents, hcounts⟩ := Bool.and_eq_true_iff.1 hdecided
  have hlower := eq_ok_of_toOption hu
  exact ⟨u, hd, hlower, eq_of_beq hcontents, eq_of_beq hcounts, Module.lower_literalsExact hd hlower⟩

end Sample

end BlockForm
