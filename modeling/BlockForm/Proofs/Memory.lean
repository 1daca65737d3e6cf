import BlockForm.Proofs.ExpressionMeaning

/-!
# BlockForm.Proofs.Memory — cells and variables

`Tracks E M s c env`: at a moment of the run, the slots of the state have cells of their own, those of the names in
scope hold the values that evaluation gives the names, and that of the result is as it was made.  One rule for each
way in which memory changes: a cell is made, a name gets its slot, a variable is assigned.
-/

namespace BlockForm

open Action

variable {V : Type}

/-- The slot of the result and those of the names in scope. -/
def LoweringState.slots (s : LoweringState) : List ValueId :=
  s.function.returnSlot.toList ++ s.scopes.flatten.map Prod.snd

namespace Machine

variable {M : Machine V} {E : Evaluator V} {f f' : Function} {s s' : LoweringState} {c c' : Config V}
  {env : Environment V} {n : Nat} {v : V}

/-! ## One cell changes -/

theorem Holds.set_of_ne {slot : ValueId} {t : Elementary} {w : V} (h : M.Holds f c slot t w) (hg : f.Grows f')
    (hF : f.Grows M.function) (ha : c.Agree f.instructions.size c') (hcells : c'.cells = c.cells.set n v)
    (hne : M.datum c slot ≠ some (.cell n)) : M.Holds f' c' slot t w := by
  obtain ⟨m, hm, hw⟩ := h.cell
  have hmn : n ≠ m := by
    rintro rfl
    exact hne hm
  refine ⟨h.made.mono hg, h.ty, ⟨m, (datum_of_agree h.made hF ha).trans hm, ?_⟩, h.discrete⟩
  rw [hcells, List.getElem?_set_ne hmn, hw]

theorem Holds.set_self {slot : ValueId} {t : Elementary} {w : V} (h : M.Holds f c slot t w) (hg : f.Grows f')
    (hF : f.Grows M.function) (ha : c.Agree f.instructions.size c') (hcells : c'.cells = c.cells.set n v)
    (hn : M.datum c slot = some (.cell n)) : M.Holds f' c' slot t v := by
  obtain ⟨m, hm, hw⟩ := h.cell
  have hlt : n < c.cells.length := by
    rw [hn] at hm
    cases hm
    exact (List.getElem?_eq_some_iff.1 hw).1
  refine ⟨h.made.mono hg, h.ty, ⟨n, (datum_of_agree h.made hF ha).trans hn, ?_⟩, h.discrete⟩
  rw [hcells, List.getElem?_set_self hlt]

theorem Variables.holds_of_mem {slots : Scope} (h : M.Variables f c slots env) :
    ∀ p ∈ slots, ∃ t w, M.Holds f c p.2 t w := by
  induction h with
  | nil => simp
  | cons hpq _ ih =>
    intro p hp
    rcases List.mem_cons.1 hp with rfl | hp
    · exact ⟨_, _, hpq.2⟩
    · exact ih p hp

/-- Variables in other cells keep their values. -/
theorem Variables.set_of_ne {slots : Scope} (h : M.Variables f c slots env) (hg : f.Grows f')
    (hF : f.Grows M.function) (ha : c.Agree f.instructions.size c') (hcells : c'.cells = c.cells.set n v)
    (hne : ∀ p ∈ slots, M.datum c p.2 ≠ some (.cell n)) : M.Variables f' c' slots env := by
  induction h with
  | nil => exact .nil
  | cons hpq _ ih =>
    refine .cons ⟨hpq.1, hpq.2.set_of_ne hg hF ha hcells (hne _ (List.mem_cons_self ..))⟩ (ih fun p hp => ?_)
    exact hne p (List.mem_cons_of_mem _ hp)

/-- The variable whose cell changes is the one that is assigned. -/
theorem Variables.assign {slots : Scope} (h : M.Variables f c slots env) (hg : f.Grows f')
    (hF : f.Grows M.function) (ha : c.Agree f.instructions.size c') (hcells : c'.cells = c.cells.set n v)
    (hnd : (slots.map fun p => M.datum c p.2).Nodup) {name : String} {slot : ValueId}
    (hslot : slots.lookup name = some slot) (hn : M.datum c slot = some (.cell n)) :
    M.Variables f' c' slots (env.assign name v) := by
  induction h with
  | nil => cases hslot
  | @cons p q ps qs hpq hrest ih =>
    obtain ⟨m, w⟩ := p
    obtain ⟨m', t, x⟩ := q
    obtain ⟨hm, hh⟩ := hpq
    cases hm
    rw [List.map_cons, List.nodup_cons] at hnd
    rw [List.lookup_cons] at hslot
    rw [Environment.assign]
    cases hb : name == m with
    | true =>
      rw [hb] at hslot
      cases hslot
      refine .cons ⟨rfl, hh.set_self hg hF ha hcells hn⟩
        (Variables.set_of_ne hrest hg hF ha hcells fun p hp hpn => hnd.1 ?_)
      exact List.mem_map.2 ⟨p, hp, hpn.trans hn.symm⟩
    | false =>
      rw [hb] at hslot
      refine .cons ⟨rfl, hh.set_of_ne hg hF ha hcells fun hw => hnd.1 ?_⟩ (ih hnd.2 hslot)
      exact List.mem_map.2 ⟨(name, slot), mem_of_lookup hslot, hn.trans hw.symm⟩

/-! ## The whole memory -/

/-- Memory is as evaluation has it. -/
structure Tracks (E : Evaluator V) (M : Machine V) (s : LoweringState) (c : Config V) (env : Environment V) :
    Prop where
  named : M.Variables s.function c s.scopes.flatten env
  /-- The slot of the result is as it was made. -/
  result : ∀ {r}, s.function.returnSlot = some r →
    E.result ≠ .nil ∧ M.Holds s.function c r E.result (M.meaning.blank E.result)
  noResult : s.function.returnSlot = none → E.result = .nil
  /-- No two slots share a cell. -/
  apart : (s.slots.map (M.datum c)).Nodup
  hasScope : s.scopes ≠ []

namespace Tracks

theorem holds_of_mem (h : Tracks E M s c env) {slot : ValueId} (hs : slot ∈ s.slots) :
    ∃ t w, M.Holds s.function c slot t w := by
  rcases List.mem_append.1 hs with hs | hs
  · exact ⟨_, _, (h.result (Option.mem_toList.1 hs)).2⟩
  · obtain ⟨p, hp, rfl⟩ := List.mem_map.1 hs
    exact h.named.holds_of_mem p hp

theorem map_datum_eq (h : Tracks E M s c env) (hF : s.function.Grows M.function)
    (ha : c.Agree s.function.instructions.size c') : s.slots.map (M.datum c') = s.slots.map (M.datum c) := by
  refine List.map_congr_left fun slot hs => ?_
  obtain ⟨t, w, hh⟩ := h.holds_of_mem hs
  exact datum_of_agree hh.made hF ha

theorem nodup_variables (h : Tracks E M s c env) : (s.scopes.flatten.map fun p => M.datum c p.2).Nodup := by
  have := h.apart
  rw [LoweringState.slots, List.map_append, List.map_map] at this
  exact (List.nodup_append.1 this).2.1

/-- With the same slots at a later moment, what is to be seen is what the slots hold. -/
theorem later {env' : Environment V} (h : Tracks E M s c env) (hF : s.function.Grows M.function)
    (hsc : s'.scopes = s.scopes) (hslot : s'.function.returnSlot = s.function.returnSlot)
    (ha : c.Agree s.function.instructions.size c') (hnamed : M.Variables s'.function c' s.scopes.flatten env')
    (hresult : ∀ {r t w}, s.function.returnSlot = some r → M.Holds s.function c r t w →
      M.Holds s'.function c' r t w) : Tracks E M s' c' env' := by
  refine ⟨by rw [hsc]; exact hnamed, ?_, by rw [hslot]; exact h.noResult, ?_, by rw [hsc]; exact h.hasScope⟩
  · intro r hr
    rw [hslot] at hr
    obtain ⟨hne, hh⟩ := h.result hr
    exact ⟨hne, hresult hr hh⟩
  · rw [LoweringState.slots, hsc, hslot, ← LoweringState.slots, h.map_datum_eq hF ha]
    exact h.apart

/-- Memory that only gains cells. -/
theorem mono (h : Tracks E M s c env) (hg : s.function.Grows s'.function) (hF : s'.function.Grows M.function)
    (hsc : s'.scopes = s.scopes) (hslot : s'.function.returnSlot = s.function.returnSlot)
    (ha : c.Agree s.function.instructions.size c') (hcells : c.cells <+: c'.cells) : Tracks E M s' c' env := by
  have hF₀ := hg.trans hF
  exact h.later hF₀ hsc hslot ha (h.named.mono hg hF₀ ha hcells) fun _ hh => hh.mono hg hF₀ ha hcells

/-- A cell changes that is not the cell of a slot. -/
theorem set_of_ne (h : Tracks E M s c env) (hg : s.function.Grows s'.function) (hF : s'.function.Grows M.function)
    (hsc : s'.scopes = s.scopes) (hslot : s'.function.returnSlot = s.function.returnSlot)
    (ha : c.Agree s.function.instructions.size c') (hcells : c'.cells = c.cells.set n v)
    (hne : ∀ slot ∈ s.slots, M.datum c slot ≠ some (.cell n)) : Tracks E M s' c' env := by
  have hF₀ := hg.trans hF
  refine h.later hF₀ hsc hslot ha ?_ fun {r t w} hr hh => ?_
  · refine h.named.set_of_ne hg hF₀ ha hcells fun p hp => hne _ (List.mem_append_right _ ?_)
    exact List.mem_map_of_mem hp
  · exact hh.set_of_ne hg hF₀ ha hcells (hne r (List.mem_append_left _ (by simp [hr])))

/-- The cell of a variable changes. -/
theorem assign (h : Tracks E M s c env) (hg : s.function.Grows s'.function) (hF : s'.function.Grows M.function)
    (hsc : s'.scopes = s.scopes) (hslot : s'.function.returnSlot = s.function.returnSlot)
    (ha : c.Agree s.function.instructions.size c') (hcells : c'.cells = c.cells.set n v) {name : String}
    {slot : ValueId} (hname : s.scopes.findSome? (List.lookup name) = some slot)
    (hn : M.datum c slot = some (.cell n)) : Tracks E M s' c' (env.assign name v) := by
  have hF₀ := hg.trans hF
  rw [findSome?_lookup] at hname
  refine h.later hF₀ hsc hslot ha ?_ fun {r t w} hr hh => ?_
  · exact h.named.assign hg hF₀ ha hcells h.nodup_variables hname hn
  · -- the slot of the result is not the slot of the variable
    refine hh.set_of_ne hg hF₀ ha hcells fun hrn => ?_
    have hapart := h.apart
    rw [LoweringState.slots, hr, Option.toList_some, List.singleton_append, List.map_cons, List.nodup_cons] at hapart
    refine hapart.1 (List.mem_map.2 ⟨slot, ?_, hn.trans hrn.symm⟩)
    exact List.mem_map.2 ⟨_, mem_of_lookup hname, rfl⟩

/-- A name gets a slot with a cell of its own. -/
theorem define (h : Tracks E M s c env) {name : String} {slot : ValueId} {t : Elementary}
    (hs : M.Holds s.function c slot t v) (hne : ∀ w ∈ s.slots, M.datum c w ≠ M.datum c slot) {a : Unit}
    (hd : Gives (Lowering.define name slot) s a s') : Tracks E M s' c ((name, t, v) :: env) := by
  simp only [Lowering.define, gives_modify] at hd
  cases hsc : s.scopes with
  | nil => exact absurd hsc h.hasScope
  | cons scope rest =>
    rw [hsc] at hd
    subst hd
    have hvars := h.named
    rw [Variables, hsc] at hvars
    refine ⟨.cons ⟨rfl, hs⟩ hvars, h.result, h.noResult, ?_, by simp⟩
    have hslots : LoweringState.slots { s with scopes := ((name, slot) :: scope) :: rest } =
        s.function.returnSlot.toList ++ slot :: s.scopes.flatten.map Prod.snd := by
      simp [LoweringState.slots, hsc]
    rw [hslots, List.perm_middle.map _ |>.nodup_iff, List.map_cons, List.nodup_cons]
    refine ⟨fun hmem => ?_, h.apart⟩
    obtain ⟨w, hw, he⟩ := List.mem_map.1 hmem
    exact hne w hw he

/-- A fresh cell is no cell of a slot. -/
theorem ne_fresh (h : Tracks E M s c env) : ∀ slot ∈ s.slots, M.datum c slot ≠ some (.cell c.cells.length) := by
  intro slot hs he
  obtain ⟨t, w, hh⟩ := h.holds_of_mem hs
  obtain ⟨m, hm, hw⟩ := hh.cell
  rw [he] at hm
  cases hm
  exact Nat.lt_irrefl _ (List.getElem?_eq_some_iff.1 hw).1

/-- A name gets a fresh slot, which is given its first value. -/
theorem introduce {s₁ s₂ : LoweringState} {c₁ c₂ : Config V} {name : String} {slot : ValueId} {t : Elementary}
    {w x : V} {a : Unit} (h : Tracks E M s c env) (hg₁ : s.function.Grows s₁.function)
    (hg₂ : s₁.function.Grows s₂.function) (hF : s₂.function.Grows M.function)
    (hsc₁ : s₁.scopes = s.scopes) (hsc₂ : s₂.scopes = s₁.scopes)
    (hslot₁ : s₁.function.returnSlot = s.function.returnSlot)
    (hslot₂ : s₂.function.returnSlot = s₁.function.returnSlot) (ha₁ : c.Agree s.function.instructions.size c₁)
    (hcells₁ : c.cells <+: c₁.cells) (hfresh : M.datum c₁ slot = some (.cell c.cells.length))
    (hs : M.Holds s₁.function c₁ slot t w) (ha₂ : c₁.Agree s₁.function.instructions.size c₂)
    (hcells₂ : c₂.cells = c₁.cells.set c.cells.length x) (hd : Gives (Lowering.define name slot) s₂ a s') :
    Tracks E M s' c₂ ((name, t, x) :: env) := by
  have hF₁ := hg₂.trans hF
  have h₁ := h.mono hg₁ hF₁ hsc₁ hslot₁ ha₁ hcells₁
  have hslots : s₁.slots = s.slots := by rw [LoweringState.slots, hsc₁, hslot₁, ← LoweringState.slots]
  have hne : ∀ v ∈ s₁.slots, M.datum c₁ v ≠ some (.cell c.cells.length) := by
    intro v hv
    rw [hslots] at hv
    obtain ⟨_, _, hh⟩ := h.holds_of_mem hv
    rw [datum_of_agree hh.made (hg₁.trans hF₁) ha₁]
    exact h.ne_fresh v hv
  have h₂ := h₁.set_of_ne hg₂ hF hsc₂ hslot₂ ha₂ hcells₂ hne
  refine h₂.define (hs.set_self hg₂ hF₁ ha₂ hcells₂ hfresh) (fun v hv => ?_) hd
  have hv₁ : v ∈ s₁.slots := by rwa [LoweringState.slots, hsc₂, hslot₂, ← LoweringState.slots] at hv
  obtain ⟨_, _, hh⟩ := h₁.holds_of_mem hv₁
  rw [datum_of_agree hh.made hF₁ ha₂, datum_of_agree hs.made hF₁ ha₂, hfresh]
  exact hne v hv₁

/-- A scope of its own has no names at first. -/
theorem enterScope (h : Tracks E M s c env) : Tracks E M { s with scopes := [] :: s.scopes } c env :=
  ⟨h.named, h.result, h.noResult, h.apart, by simp⟩

/-- The names of the innermost scope are forgotten. -/
theorem leaveScope (h : Tracks E M s c env) (hsc : s.scopes.tail ≠ []) :
    Tracks E M { s with scopes := s.scopes.tail } c (env.drop (env.length - s.scopes.tail.flatten.length)) := by
  obtain ⟨scope, rest, hs⟩ := List.exists_cons_of_ne_nil h.hasScope
  have hnamed := h.named
  have hapart := h.apart
  rw [Variables, hs, List.flatten_cons] at hnamed
  rw [LoweringState.slots, hs, List.flatten_cons] at hapart
  have hlen : env.length - rest.flatten.length = scope.length := by
    have := hnamed.length_eq
    rw [List.length_append] at this
    omega
  rw [hs, List.tail_cons, hlen]
  refine ⟨?_, h.result, h.noResult, ?_, by simpa [hs] using hsc⟩
  · have hrest := List.forall₂_drop scope.length hnamed
    rwa [List.drop_left] at hrest
  · refine hapart.sublist ((List.Sublist.append_left ?_ _).map _)
    exact (List.sublist_append_right _ _).map _

end Tracks

end Machine

end BlockForm
