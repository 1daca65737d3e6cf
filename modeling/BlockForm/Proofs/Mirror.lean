import BlockForm.Proofs.Echo
import BlockForm.Proofs.Embedding
import BlockForm.Proofs.Rejection

/-!
# BlockForm.Proofs.Mirror — lowering the same code in two units

A run that ends in a stage of the unit `F` is mirrored by a run of the same code in a unit embedded in `F`: the handles
of values and blocks are equal, those of typedefs and literals match.  `Mirrors P F pre Q x y` says so for a step: it
holds of `x` and `y` under the facts `pre`, and `Q` relates their results.  Facts are about the second unit and last
while it grows (`Lasting`), so that what one step has found is there for the next (`Mirrors.bindWith`).  That `x` only
adds to its unit is part of the notion, because a stage of `F` is recognized at the end of a run.  A run that ends in a
user error is mirrored by one that ends in the same error.
-/

namespace BlockForm

open Action CompilationUnit

/-! ## Facts about a growing unit -/

/-- A fact about a unit that more typedefs and literals do not change. -/
structure Lasting where
  holds : CompilationUnit → Prop
  mono : ∀ {u u'}, u.Extends u' → holds u → holds u'

namespace Lasting

/-- Both facts. -/
def and (p q : Lasting) : Lasting := ⟨fun u => p.holds u ∧ q.holds u, fun h hu => ⟨p.mono h hu.1, q.mono h hu.2⟩⟩

/-- A fact that has nothing to do with the unit. -/
def of (p : Prop) : Lasting := ⟨fun _ => p, fun _ h => h⟩

/-- The results are equal. -/
def same {α : Type} (a b : α) : Lasting := of (a = b)

/-- The types match. -/
def matching (F : CompilationUnit) (a b : LoweredType) : Lasting :=
  ⟨fun u => a.Matches F u b, fun h hab => hab.mono h.typedefs⟩

end Lasting

open Lasting

namespace CompilationUnit

/-- A unit that `F` has grown from, definitions having taken the place of declarations. -/
structure Stage (F u : CompilationUnit) : Prop extends Upholds u F where
  globals : u.globals.entries <+: F.globals.entries

theorem Stage.of_extends {F u u' : CompilationUnit} (h : F.Stage u') (hu : u.Extends u') : F.Stage u :=
  ⟨⟨hu.typedefs.trans h.typedefs, fun hc => h.signature (by rwa [function?, hu.functions])⟩, hu.globals.trans h.globals⟩

theorem Announced.of_extends {F t t' : CompilationUnit} (h : F.Announced t) (ht : t.Extends t') : F.Announced t' := by
  intro name f hf
  obtain ⟨g, hg, ha, hr⟩ := h name f hf
  exact ⟨g, by rwa [function?, ht.functions], ha.imp fun _ _ hab => hab.mono ht.typedefs, hr.mono ht.typedefs⟩

/-- A unit over a family of types, in which everything that is looked up can be found. -/
structure Whole (P : Ty → Prop) (F : CompilationUnit) : Prop where
  family : Ty.Family P
  orderly : Orderly P F

end CompilationUnit

/-- The states of two runs with the same function. -/
structure Mirror (P : Ty → Prop) (F : CompilationUnit) (s t : LoweringState) : Prop where
  function : s.function.Matches F t.unit t.function
  current : s.current = t.current
  endBlock : s.endBlock = t.endBlock
  scopes : s.scopes = t.scopes
  embedded : Embedded P F t.unit
  announced : F.Announced t.unit

/-- The states have been seen. -/
def Lasting.seen (P : Ty → Prop) (F : CompilationUnit) (s t : LoweringState) : Lasting :=
  ⟨fun u => Mirror P F s t ∧ t.unit.Extends u, fun h hu => ⟨hu.1, hu.2.trans h⟩⟩

/-- What `x` does on the way to `F`, `y` does in an embedded unit. -/
structure Mirrors {α β : Type} (P : Ty → Prop) (F : CompilationUnit) (pre : Lasting) (Q : α → β → Lasting)
    (x : Lowering α) (y : Lowering β) : Prop where
  advances : ∀ {s a s'}, Gives x s a s' → Advances P s.unit s'.unit
  mirrors : ∀ {s t a s'}, pre.holds t.unit → Mirror P F s t → Gives x s a s' → F.Stage s'.unit →
    ∃ b t', Gives y t b t' ∧ t.unit.Extends t'.unit ∧ (Q a b).holds t'.unit ∧ Mirror P F s' t'
  rejects : ∀ {s e s'}, Rejects x s e s' → Advances P s.unit s'.unit ∧
    ∀ {t}, pre.holds t.unit → Mirror P F s t → F.Stage s'.unit → ∃ t', Rejects y t e t'

/-! ## Rules -/

namespace Mirrors

variable {P : Ty → Prop} {F : CompilationUnit} {pre : Lasting} {α β γ δ : Type} {R : γ → δ → Lasting}

theorem weaken {pre' : Lasting} {x : Lowering γ} {y : Lowering δ} (hx : Mirrors P F pre R x y)
    (hpre : ∀ {u}, pre'.holds u → pre.holds u) : Mirrors P F pre' R x y where
  advances := hx.advances
  mirrors := fun h => hx.mirrors (hpre h)
  rejects := fun h => ⟨(hx.rejects h).1, fun h' => (hx.rejects h).2 (hpre h')⟩

/-- What is known to be equal may be taken to be the same. -/
theorem subst {a b : α} {k : α → Lowering γ} {l : α → Lowering δ} (hab : ∀ {u}, pre.holds u → a = b)
    (hk : ∀ a, Mirrors P F pre R (k a) (l a)) : Mirrors P F pre R (k a) (l b) where
  advances := (hk a).advances
  mirrors := fun hpre hst h hF => by
    obtain rfl := hab hpre
    exact (hk a).mirrors hpre hst h hF
  rejects := fun h => by
    refine ⟨((hk a).rejects h).1, fun hpre hst hF => ?_⟩
    obtain rfl := hab hpre
    exact ((hk a).rejects h).2 hpre hst hF

/-- One step after another: the second knows how the results of the first are related. -/
theorem bindWith {Q : α → α → Lasting} {x y : Lowering α} {k : α → Lowering γ} {k' : α → Lowering δ}
    (hx : Mirrors P F pre Q x y) (hk : ∀ a b, Mirrors P F (pre.and (Q a b)) R (k a) (k' b)) :
    Mirrors P F pre R (x >>= k) (y >>= k') where
  advances := fun h => by
    obtain ⟨a, s₁, h₁, h₂⟩ := gives_bind.1 h
    exact (hx.advances h₁).trans ((hk a a).advances h₂)
  mirrors := fun {s t c s'} hpre hst h hF => by
    obtain ⟨a, s₁, h₁, h₂⟩ := gives_bind.1 h
    obtain ⟨b, t₁, h₁', he₁, hab, hst₁⟩ := hx.mirrors hpre hst h₁ (hF.of_extends ((hk a a).advances h₂).extends)
    obtain ⟨d, t', h₂', he₂, hR, hst'⟩ := (hk a b).mirrors ⟨pre.mono he₁ hpre, hab⟩ hst₁ h₂ hF
    exact ⟨d, t', gives_bind.2 ⟨b, t₁, h₁', h₂'⟩, he₁.trans he₂, hR, hst'⟩
  rejects := fun h => by
    rcases rejects_bind.1 h with h | ⟨a, s₁, h₁, h₂⟩
    · refine ⟨(hx.rejects h).1, fun hpre hst hF => ?_⟩
      obtain ⟨t', h'⟩ := (hx.rejects h).2 hpre hst hF
      exact ⟨t', rejects_bind.2 (Or.inl h')⟩
    · have hadv := ((hk a a).rejects h₂).1
      refine ⟨(hx.advances h₁).trans hadv, fun hpre hst hF => ?_⟩
      obtain ⟨b, t₁, h₁', he₁, hab, hst₁⟩ := hx.mirrors hpre hst h₁ (hF.of_extends hadv.extends)
      obtain ⟨t', h₂'⟩ := ((hk a b).rejects h₂).2 ⟨pre.mono he₁ hpre, hab⟩ hst₁ hF
      exact ⟨t', rejects_bind.2 (Or.inr ⟨b, t₁, h₁', h₂'⟩)⟩

/-- One step after another, the first with one result for both. -/
theorem bind {x y : Lowering α} {k : α → Lowering γ} {k' : α → Lowering δ} (hx : Mirrors P F pre same x y)
    (hk : ∀ a, Mirrors P F pre R (k a) (k' a)) : Mirrors P F pre R (x >>= k) (y >>= k') :=
  hx.bindWith fun _ _ => .subst (fun h => h.2) fun a => (hk a).weaken fun h => h.1

/-- A step that looks at the state. -/
theorem get_bind {k : LoweringState → Lowering γ} {k' : LoweringState → Lowering δ}
    (hk : ∀ s t, Mirrors P F (pre.and (seen P F s t)) R (k s) (k' t)) :
    Mirrors P F pre R (Action.get >>= k) (Action.get >>= k') where
  advances := fun {s _ _} h => (hk s s).advances (gives_get_bind.1 h)
  mirrors := fun {s t c s'} hpre hst h hF => by
    obtain ⟨d, t', h', he, hR, hst'⟩ := (hk s t).mirrors ⟨hpre, hst, .refl _⟩ hst (gives_get_bind.1 h) hF
    exact ⟨d, t', gives_get_bind.2 h', he, hR, hst'⟩
  rejects := fun {s e s'} h => by
    refine ⟨((hk s s).rejects (rejects_get_bind.1 h)).1, fun {t} hpre hst hF => ?_⟩
    obtain ⟨t', h'⟩ := ((hk s t).rejects (rejects_get_bind.1 h)).2 ⟨hpre, hst, .refl _⟩ hst hF
    exact ⟨t', rejects_get_bind.2 h'⟩

theorem ite {c c' : Prop} [Decidable c] [Decidable c'] {x y : Lowering γ} {x' y' : Lowering δ}
    (hc : ∀ {u}, pre.holds u → (c ↔ c')) (hx : Mirrors P F pre R x x') (hy : Mirrors P F pre R y y') :
    Mirrors P F pre R (if c then x else y) (if c' then x' else y') where
  advances := fun h => by
    rcases gives_ite.1 h with ⟨-, h⟩ | ⟨-, h⟩
    · exact hx.advances h
    · exact hy.advances h
  mirrors := fun hpre hst h hF => by
    rcases gives_ite.1 h with ⟨hcond, h⟩ | ⟨hcond, h⟩
    · rw [if_pos ((hc hpre).1 hcond)]
      exact hx.mirrors hpre hst h hF
    · rw [if_neg (hcond ∘ (hc hpre).2)]
      exact hy.mirrors hpre hst h hF
  rejects := fun h => by
    rcases rejects_ite.1 h with ⟨hcond, h⟩ | ⟨hcond, h⟩
    · refine ⟨(hx.rejects h).1, fun hpre hst hF => ?_⟩
      rw [if_pos ((hc hpre).1 hcond)]
      exact (hx.rejects h).2 hpre hst hF
    · refine ⟨(hy.rejects h).1, fun hpre hst hF => ?_⟩
      rw [if_neg (hcond ∘ (hc hpre).2)]
      exact (hy.rejects h).2 hpre hst hF

/-- A step that looks at an option. -/
theorem elim {o o' : Option α} {x : Lowering γ} {y : Lowering δ} {k : α → Lowering γ} {l : α → Lowering δ}
    (ho : ∀ {u}, pre.holds u → o = o') (hx : Mirrors P F pre R x y) (hk : ∀ a, Mirrors P F pre R (k a) (l a)) :
    Mirrors P F pre R (o.elim x k) (o'.elim y l) := by
  refine subst (k := fun o => o.elim x k) (l := fun o => o.elim y l) ho fun o => ?_
  cases o with
  | none => exact hx
  | some a => exact hk a

/-- A step that is known to be the same mirrors itself. -/
theorem of_eq {x y : Lowering γ} {R : γ → γ → Lasting} (hxy : ∀ {u}, pre.holds u → x = y)
    (hx : Mirrors P F pre R x x) : Mirrors P F pre R x y where
  advances := hx.advances
  mirrors := fun hpre hst h hF => by
    rw [← hxy hpre]
    exact hx.mirrors hpre hst h hF
  rejects := fun h => by
    refine ⟨(hx.rejects h).1, fun hpre hst hF => ?_⟩
    rw [← hxy hpre]
    exact (hx.rejects h).2 hpre hst hF

end Mirrors

namespace Lowering

variable {P : Ty → Prop} {F : CompilationUnit} {pre : Lasting} {α β : Type}

theorem mirrors_pure (a : α) : Mirrors P F pre same (pure a) (pure a) where
  advances := fun h => (gives_pure.1 h).2 ▸ .refl
  mirrors := fun {s t b s'} _ hst h _ => by
    obtain ⟨rfl, rfl⟩ := gives_pure.1 h
    exact ⟨a, t, gives_pure.2 ⟨rfl, rfl⟩, .refl _, rfl, hst⟩
  rejects := fun h => absurd h (not_rejects_of_plain (r := id) (plain_pure a))

theorem mirrors_fault (e e' : Fault) (Q : α → β → Lasting) :
    Mirrors P F pre Q (Action.fault e) (Action.fault e') where
  advances := fun h => absurd h not_gives_fault
  mirrors := fun _ _ h => absurd h not_gives_fault
  rejects := fun h => absurd h not_rejects_fault

theorem mirrors_fail (e : Error) (Q : α → β → Lasting) : Mirrors P F pre Q (Action.fail e) (Action.fail e) where
  advances := fun h => absurd h not_gives_fail
  mirrors := fun _ _ h => absurd h not_gives_fail
  rejects := fun {s e' s'} h => by
    obtain ⟨rfl, hi, rfl⟩ := rejects_fail.1 h
    exact ⟨.refl, fun {t} _ _ _ => ⟨t, rejects_fail.2 ⟨rfl, hi, rfl⟩⟩⟩

theorem mirrors_need (value : Option α) (e e' : Fault) :
    Mirrors P F pre same (Action.need value e) (Action.need value e') := by
  cases value with
  | none => exact mirrors_fault e e' same
  | some a => exact mirrors_pure a

/-- A value that must be there, and a step that has it. -/
theorem mirrors_need_bind {γ δ : Type} {value : Option α} {e e' : Fault} {k : α → Lowering γ} {k' : α → Lowering δ}
    {R : γ → δ → Lasting} (hk : ∀ a, value = some a → Mirrors P F pre R (k a) (k' a)) :
    Mirrors P F pre R (Action.need value e >>= k) (Action.need value e' >>= k') where
  advances := fun h => by
    obtain ⟨a, ha, h⟩ := gives_need_bind.1 h
    exact (hk a ha).advances h
  mirrors := fun {s t b s'} hpre hst h hF => by
    obtain ⟨a, ha, h⟩ := gives_need_bind.1 h
    obtain ⟨c, t', h', he, hR, hst'⟩ := (hk a ha).mirrors hpre hst h hF
    exact ⟨c, t', gives_need_bind.2 ⟨a, ha, h'⟩, he, hR, hst'⟩
  rejects := fun h => by
    obtain ⟨a, ha, h⟩ := rejects_need_bind.1 h
    refine ⟨((hk a ha).rejects h).1, fun hpre hst hF => ?_⟩
    obtain ⟨t', h'⟩ := ((hk a ha).rejects h).2 hpre hst hF
    exact ⟨t', rejects_need_bind.2 ⟨a, ha, h'⟩⟩

theorem mirrors_report (e e' : Event) : Mirrors P F pre same (Action.report e) (Action.report e') where
  advances := fun h => gives_report.1 h ▸ .refl
  mirrors := fun {s t a s'} _ hst h _ => by
    obtain rfl := gives_report.1 h
    exact ⟨(), t, gives_report.2 rfl, .refl _, rfl, hst⟩
  rejects := fun h => absurd h (not_rejects_of_plain (r := id) (plain_report e))

theorem mirrors_inFunction {x y : Building α} (hx : Plain id .fault x) (hxy : ∀ v, Function.Echoes F v x y) :
    Mirrors P F pre same (inFunction x) (inFunction y) where
  advances := fun h => by
    obtain ⟨f, -, rfl⟩ := gives_inFunction.1 h
    exact .refl
  mirrors := fun {s t a s'} _ hst h _ => by
    obtain ⟨f, hf, rfl⟩ := gives_inFunction.1 h
    obtain ⟨g, hg, hfg⟩ := (hxy t.unit).run hst.function hf
    exact ⟨a, _, gives_inFunction.2 ⟨g, hg, rfl⟩, .refl _, rfl, { hst with function := hfg }⟩
  rejects := fun h => absurd h (not_rejects_of_plain (plain_inFunction (b := false) hx))

theorem mirrors_inScope {x : Lowering α} {y : Lowering β} {Q : α → β → Lasting} (h : Mirrors P F pre Q x y) :
    Mirrors P F pre Q (inScope x) (inScope y) where
  advances := fun {s a s'} hs => by
    obtain ⟨s₁, hx, rfl⟩ := gives_inScope.1 hs
    have hadv := h.advances hx
    exact hadv
  mirrors := fun {s t a s'} hpre hst hs hF => by
    obtain ⟨s₁, hx, rfl⟩ := gives_inScope.1 hs
    have hst₀ : Mirror P F { s with scopes := [] :: s.scopes } { t with scopes := [] :: t.scopes } :=
      { hst with scopes := congrArg ([] :: ·) hst.scopes }
    obtain ⟨b, t₁, hy, he, hQ, hst₁⟩ := h.mirrors (t := { t with scopes := [] :: t.scopes }) hpre hst₀ hx hF
    exact ⟨b, _, gives_inScope.2 ⟨t₁, hy, rfl⟩, he, hQ, { hst₁ with scopes := congrArg List.tail hst₁.scopes }⟩
  rejects := fun {s e s'} hs => by
    obtain ⟨s₁, hx, rfl⟩ := rejects_inScope.1 hs
    obtain ⟨hadv, hrest⟩ := h.rejects hx
    refine ⟨hadv, fun {t} hpre hst hF => ?_⟩
    have hst₀ : Mirror P F { s with scopes := [] :: s.scopes } { t with scopes := [] :: t.scopes } :=
      { hst with scopes := congrArg ([] :: ·) hst.scopes }
    obtain ⟨t₁, hy⟩ := hrest (t := { t with scopes := [] :: t.scopes }) hpre hst₀ hF
    exact ⟨_, rejects_inScope.2 ⟨t₁, hy, rfl⟩⟩

/-! ## Types and literals -/

theorem mirrors_lowerType (hF : Whole P F) {ty : Ty} (hty : P ty) :
    Mirrors P F pre (matching F) (lowerType ty) (lowerType ty) where
  advances := fun h => by
    obtain ⟨u, hu, rfl⟩ := gives_inUnit.1 h
    exact advances_of_lowerType hF.family hty hu
  mirrors := fun {s t l s'} _ hst h hs' => by
    obtain ⟨u, hu, rfl⟩ := gives_inUnit.1 h
    have hlF := lowerType_again hu hs'.typedefs
    obtain ⟨l', v, hv, hemb⟩ := hst.embedded.lowerType hF.family hF.orderly hty hlF
    have he := extends_of_lowerType hv
    refine ⟨l', _, gives_inUnit.2 ⟨v, hv, rfl⟩, he, matches_of_lowerType hlF hv, ?_⟩
    exact ⟨hst.function.mono he.typedefs he.globals, hst.current, hst.endBlock, hst.scopes, hemb,
      hst.announced.of_extends he⟩
  rejects := fun h => absurd h (not_rejects_of_plain (plain_lowerType (b := false) ty))

/-! ## The state of a function -/

theorem mirrors_functionName : Mirrors P F pre same functionName functionName :=
  .get_bind fun _ _ => .of_eq (fun h => by rw [h.2.1.function.name]) (mirrors_pure _)

theorem mirrors_slotOf (name : String) : Mirrors P F pre same (slotOf name) (slotOf name) :=
  .get_bind fun _ _ => .of_eq (fun h => by rw [h.2.1.scopes, h.2.1.function.name]) (mirrors_need _ _ _)

theorem mirrors_define (name : String) (slot : ValueId) :
    Mirrors P F pre same (define name slot) (define name slot) where
  advances := fun {s a s'} h => by
    obtain rfl := gives_modify.1 h
    cases s.scopes <;> exact .refl
  mirrors := fun {s t a s'} _ hst h _ => by
    obtain rfl := gives_modify.1 h
    refine ⟨(), _, gives_modify.2 rfl, ?_, rfl, ?_⟩
    · cases t.scopes <;> exact .refl _
    · rw [← hst.scopes]
      cases s.scopes with
      | nil => exact hst
      | cons scope rest => exact { hst with scopes := rfl }
  rejects := fun h => absurd h (not_rejects_of_plain (plain_define (b := false) name slot))

theorem mirrors_typeOf (v : ValueId) : Mirrors P F pre (matching F) (typeOf v) (typeOf v) where
  advances := fun h => (gives_typeOf.1 h).2 ▸ .refl
  mirrors := fun {s t ty s'} _ hst h _ => by
    obtain ⟨hty, rfl⟩ := gives_typeOf.1 h
    obtain ⟨ty', hty', hm⟩ := hst.function.valueType?_some (Function.operandType_eq_ok_iff_valueType?.1 hty)
    exact ⟨ty', t, gives_typeOf.2 ⟨Function.operandType_eq_ok_iff_valueType?.2 hty', rfl⟩, .refl _, hm, hst⟩
  rejects := fun h => absurd h (not_rejects_of_plain (plain_typeOf (b := false) v))

theorem mirrors_constant (c : Constant) (e : Elementary) : Mirrors P F pre same (constant c e) (constant c e) :=
  mirrors_inFunction (Function.plain_pushValue _) fun _ => Function.echoes_constant c e

theorem mirrors_newBlock : Mirrors P F pre same newBlock newBlock :=
  mirrors_inFunction Function.plain_newBlock fun _ => Function.echoes_newBlock

theorem mirrors_emit (hF : Whole P F) {op op' : Operation} (hop : ∀ {u}, pre.holds u → op.Matches F u op') :
    Mirrors P F pre same (emit op) (emit op') where
  advances := fun h => by
    obtain ⟨f, -, rfl⟩ := gives_emit.1 h
    exact .refl
  mirrors := fun {s t a s'} hpre hst h hs' => by
    obtain ⟨f, hf, rfl⟩ := gives_emit.1 h
    have halike := hF.orderly.alike hF.family hst.embedded.orderly
    have hecho := Function.echoes_pushInstruction hs'.toUpholds halike hst.announced s.current (hop hpre)
    obtain ⟨g, hg, hfg⟩ := hecho.run hst.function hf
    rw [hst.current] at hg
    exact ⟨a, _, gives_emit.2 ⟨g, hg, rfl⟩, .refl _, rfl, { hst with function := hfg }⟩
  rejects := fun h => absurd h (not_rejects_of_plain (plain_emit (b := false) op))

/-- An operation without types of its own. -/
theorem mirrors_emit_same (hF : Whole P F) {op : Operation} (hop : op.types = []) :
    Mirrors P F pre same (emit op) (emit op) := mirrors_emit hF fun _ => .same hop

theorem mirrors_isTerminated : Mirrors P F pre same isTerminated isTerminated :=
  .get_bind fun _ _ => .of_eq (fun h => by rw [h.2.1.function.block?_eq, h.2.1.current]) (mirrors_pure _)

theorem mirrors_leave (exit : Exit) : Mirrors P F pre same (leave exit) (leave exit) :=
  .get_bind fun _ _ => .of_eq (fun h => by rw [h.2.1.current])
    (mirrors_inFunction (Function.plain_setExit _ exit) fun _ => Function.echoes_setExit _ exit)

theorem mirrors_startBlock (b : BlockId) : Mirrors P F pre same (startBlock b) (startBlock b) where
  advances := fun h => by
    obtain ⟨f, -, rfl⟩ := gives_startBlock.1 h
    exact .refl
  mirrors := fun {s t a s'} _ hst h _ => by
    obtain ⟨f, hf, rfl⟩ := gives_startBlock.1 h
    obtain ⟨g, hg, hfg⟩ := (Function.echoes_appendBlock b).run hst.function hf
    exact ⟨a, _, gives_startBlock.2 ⟨g, hg, rfl⟩, .refl _, rfl, { hst with function := hfg, current := rfl }⟩
  rejects := fun h => absurd h (not_rejects_of_plain (plain_startBlock (b := false) b))

theorem mirrors_labelOf (b : BlockId) :
    Mirrors P F pre same (inFunction (Function.labelOf b)) (inFunction (Function.labelOf b)) :=
  mirrors_inFunction (Function.plain_labelOf b) fun _ => Function.echoes_labelOf b

theorem mirrors_branchTo (b : BlockId) : Mirrors P F pre same (branchTo b) (branchTo b) := by
  refine mirrors_isTerminated.bind fun terminated => ?_
  cases terminated with
  | true => exact mirrors_pure ()
  | false => exact (mirrors_labelOf b).bind fun target => mirrors_leave _

theorem mirrors_branchOn (condition : ValueId) (taken otherwise : BlockId) :
    Mirrors P F pre same (branchOn condition taken otherwise) (branchOn condition taken otherwise) :=
  (mirrors_labelOf taken).bind fun _ => (mirrors_labelOf otherwise).bind fun _ => mirrors_leave _

/-! ## Values and slots -/

theorem mirrors_alloca (hF : Whole P F) {a b : LoweredType} (hab : ∀ {u}, pre.holds u → a.Matches F u b) :
    Mirrors P F pre same (alloca a) (alloca b) := mirrors_emit hF fun h => .alloca 1 (hab h)

/-- Conversion, with the constant that may be found as an option. -/
theorem coerce_eq (v : ValueId) (target : LoweredType) : coerce v target = (do
    let ty ← typeOf v
    if ty = target then pure v
    else do
      let s ← Action.get
      (retypedConstant? s.function v target).elim
        (if ty.isScalar && target.isScalar then emit (.convert v target)
          else Action.fault (.noConversion (s.unit.typeText ty) (s.unit.typeText target) s.function.name))
        fun p => constant p.1 p.2) := by
  refine bind_congr fun ty => ?_
  split
  · rfl
  · refine bind_congr fun s => ?_
    cases retypedConstant? s.function v target <;> rfl

theorem mirrors_coerce (hF : Whole P F) (v : ValueId) {a b : LoweredType}
    (hab : ∀ {u}, pre.holds u → a.Matches F u b) : Mirrors P F pre same (coerce v a) (coerce v b) := by
  rw [coerce_eq, coerce_eq]
  refine (mirrors_typeOf v).bindWith fun ty ty' => .ite (fun h => h.2.eq_iff (hab h.1)) (mirrors_pure v) ?_
  refine .get_bind fun s t => ?_
  refine .elim (fun h => h.2.1.function.retypedConstant?_eq v (hab h.1.1)) ?_ fun p => mirrors_constant p.1 p.2
  refine .ite (fun h => ?_) (mirrors_emit hF fun h => .convert v (hab h.1.1)) (mirrors_fault _ _ same)
  rw [h.1.2.isScalar_eq, (hab h.1.1).isScalar_eq]

theorem mirrors_store (hF : Whole P F) (slot v : ValueId) : Mirrors P F pre same (store slot v) (store slot v) := by
  refine (mirrors_typeOf slot).bindWith fun slotTy slotTy' => (mirrors_typeOf v).bindWith fun ty ty' => ?_
  refine .ite (fun h => ?_) (.bind (mirrors_emit_same hF rfl) fun content => ?_)
    (.bind (mirrors_coerce hF v fun h => h.1.2.pointee) fun content => ?_)
  · rw [h.2.isComposite_eq, h.2.isPointer_eq, h.2.sameKind_eq h.1.2]
  · exact .bind (mirrors_emit_same hF rfl) fun _ => mirrors_pure ()
  · exact .bind (mirrors_emit_same hF rfl) fun _ => mirrors_pure ()

theorem mirrors_load (hF : Whole P F) (slot : ValueId) : Mirrors P F pre same (load slot) (load slot) := by
  refine (mirrors_typeOf slot).bindWith fun ty ty' => .ite (fun h => ?_) (mirrors_pure slot) ?_
  · rw [h.2.isComposite_eq]
  · exact mirrors_emit_same hF rfl

end Lowering

end BlockForm
