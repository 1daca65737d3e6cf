import Mathlib.Logic.Relation
import BlockForm.Proofs.Bodies
import BlockForm.Proofs.Primitives
import BlockForm.Proofs.Program

/-!
# BlockForm.Proofs.Effects — what lowering does to a state

`Lowering.Made` says which steps lowering is made of; `LoweringState.Effect` says what each of them does to a state when
it succeeds.  So every successful run of a part of lowering is a sequence of effects (`Made.effects`), from whatever
state it starts, and what each effect keeps all of lowering keeps.  Lowering a definition is such a sequence, from the
function that has only its arguments and its first two blocks (`defineFunction_effects`).
-/

namespace BlockForm

open Action

/-- What a primitive step does to a state when it succeeds. -/
inductive LoweringState.Effect : LoweringState → LoweringState → Prop where
  /-- Names come into scope or go out of it. -/
  | scopes (s : LoweringState) (scopes : List Scope) : Effect s { s with scopes := scopes }
  /-- A type is lowered. -/
  | lowerType {s : LoweringState} {ty : Ty} {t : LoweredType} {u : CompilationUnit}
      (h : Gives (CompilationUnit.lowerType ty) s.unit t u) : Effect s { s with unit := u }
  /-- A string is interned and gets a value. -/
  | literal {s : LoweringState} {content : String} {id : GlobalId} {l : Global} {v : ValueId} {u : CompilationUnit}
      {f : Function} (hu : Gives (CompilationUnit.internLiteral content) s.unit id u) (hl : u.globalAt? id = some l)
      (hf : Gives (Function.literal id l) s.function v f) : Effect s { s with unit := u, function := f }
  /-- A constant is made. -/
  | constant {s : LoweringState} {c : Constant} {e : Elementary} (h : c.Fits e) :
      Effect s { s with function := s.function.withValue ⟨.constant c, some (.elementary e), c.text⟩ }
  /-- A block is made. -/
  | newBlock (s : LoweringState) : Effect s { s with function := s.function.withLabel }
  /-- A block is placed and becomes the current one. -/
  | startBlock (s : LoweringState) (b : BlockId) : Effect s { s with function := s.function.place b, current := b }
  /-- An instruction is added to the current block. -/
  | emit {s : LoweringState} {x : Block} (hx : s.function.block? s.current = some x) (hopen : x.exit = none)
      (op : Operation) (ty : Option LoweredType) :
      Effect s { s with function := s.function.withEmitted s.current x op ty }
  /-- The current block gets its exit. -/
  | leave {s : LoweringState} {x : Block} (hx : s.function.block? s.current = some x) (hopen : x.exit = none)
      (e : Exit) : Effect s { s with function := s.function.withExit s.current x e }
  /-- The slot for the returned value is known. -/
  | setReturnSlot (s : LoweringState) (slot : ValueId) :
      Effect s { s with function := { s.function with returnSlot := some slot } }
  /-- A block returns. -/
  | setReturn {s : LoweringState} {b : BlockId} {x : Block} (hx : s.function.block? b = some x) (hopen : x.exit = none)
      (value : Option ValueId) : Effect s { s with function := s.function.withReturn b x value }

/-- Any number of effects. -/
abbrev LoweringState.Effects : LoweringState → LoweringState → Prop := Relation.ReflTransGen LoweringState.Effect

namespace LoweringState

variable {s s' : LoweringState}

/-- What every effect keeps, a sequence of them keeps. -/
theorem Effects.keeps {P : LoweringState → Prop} (step : ∀ {s s'}, Effect s s' → P s → P s') (h : Effects s s')
    (hs : P s) : P s' := by
  induction h with
  | refl => exact hs
  | tail _ he ih => exact step he ih

theorem Effect.grows (h : Effect s s') : s.function.Grows s'.function := by
  cases h with
  | scopes | lowerType => exact .refl _
  | literal _ _ hf =>
    rcases Function.literal_gives hf with ⟨-, rfl⟩ | ⟨-, -, -, rfl⟩
    · exact .refl _
    · exact Function.grows_withLiteral _ _
  | constant => exact Function.grows_withValue _
  | newBlock => exact Function.grows_withLabel
  | startBlock b => exact Function.grows_place b
  | emit hx hopen op ty => exact Function.grows_withEmitted hx hopen op ty
  | leave hx hopen e => exact Function.grows_withExit hx hopen e
  | setReturnSlot slot =>
    exact ⟨rfl, rfl, rfl, rfl, rfl, rfl, List.prefix_refl _, List.prefix_refl _, List.prefix_refl _,
      fun hx => ⟨_, hx, .refl _⟩⟩
  | setReturn hx hopen value => exact Function.grows_withReturn hx hopen value

theorem Effects.grows (h : Effects s s') : s.function.Grows s'.function :=
  h.keeps (P := fun t => s.function.Grows t.function) (fun he hs => hs.trans he.grows) (.refl _)

theorem Effect.extends (h : Effect s s') : s.unit.Extends s'.unit := by
  cases h with
  | lowerType h => exact CompilationUnit.extends_of_lowerType h
  | literal hu => exact CompilationUnit.extends_of_internLiteral hu
  | _ => exact .refl _

theorem Effects.extends (h : Effects s s') : s.unit.Extends s'.unit :=
  h.keeps (P := fun t => s.unit.Extends t.unit) (fun he hs => hs.trans he.extends) (.refl _)

end LoweringState

namespace Lowering

open LoweringState

/-- **A successful run of what is made of primitive steps is a sequence of their effects.** -/
theorem Made.effects {α : Type} {x : Lowering α} {P : α → Prop} (h : Made (fun _ => True) x P) :
    ∀ {s a s'}, Gives x s a s' → P a ∧ Effects s s' := by
  induction h with
  | pure hP =>
    intro s a s' h
    obtain ⟨rfl, rfl⟩ := gives_pure.1 h
    exact ⟨hP, .refl⟩
  | absent =>
    intro s a s' h
    obtain ⟨-, rfl⟩ := gives_pure.1 h
    exact ⟨trivial, .refl⟩
  | bind _ _ ihx ihk =>
    intro s b s' h
    obtain ⟨a, t, hx, hk⟩ := gives_bind.1 h
    obtain ⟨ha, ht⟩ := ihx hx
    obtain ⟨hb, hs'⟩ := ihk a ha hk
    exact ⟨hb, ht.trans hs'⟩
  | get =>
    intro s a s' h
    obtain ⟨-, rfl⟩ := gives_get.1 h
    exact ⟨fun _ _ => trivial, .refl⟩
  | fail e => exact fun h => absurd h not_gives_fail
  | fault f => exact fun h => absurd h not_gives_fault
  | report e =>
    intro s a s' h
    obtain rfl := gives_report.1 h
    exact ⟨trivial, .refl⟩
  | inScope _ ih =>
    intro s a s' h
    obtain ⟨t, ht, rfl⟩ := gives_inScope.1 h
    obtain ⟨ha, het⟩ := ih ht
    exact ⟨ha, ((Relation.ReflTransGen.single (.scopes s ([] :: s.scopes))).trans het).tail (.scopes t t.scopes.tail)⟩
  | define _ name =>
    intro s a s' h
    obtain rfl := gives_modify.1 h
    split
    · exact ⟨trivial, .refl⟩
    · exact ⟨trivial, .single (.scopes s _)⟩
  | slotOf name =>
    intro s a s' h
    obtain ⟨-, rfl⟩ := gives_slotOf.1 h
    exact ⟨trivial, .refl⟩
  | lowerType ty =>
    intro s a s' h
    obtain ⟨u, hu, rfl⟩ := gives_inUnit.1 h
    exact ⟨trivial, .single (.lowerType hu)⟩
  | lowerLiteral content =>
    intro s a s' h
    obtain ⟨id, l, u, f, hu, hl, hf, rfl⟩ := lowerLiteral_gives h
    exact ⟨trivial, .single (.literal hu hl hf)⟩
  | constant hfits =>
    intro s a s' h
    obtain ⟨f, hf, rfl⟩ := gives_inFunction.1 h
    obtain ⟨-, -, rfl⟩ := Function.constant_gives.1 hf
    exact ⟨trivial, .single (.constant hfits)⟩
  | newBlock =>
    intro s a s' h
    obtain ⟨f, hf, rfl⟩ := gives_inFunction.1 h
    obtain ⟨-, -, -, -, -, rfl⟩ := Function.newBlock_gives hf
    exact ⟨trivial, .single (.newBlock s)⟩
  | labelOf b =>
    intro s a s' h
    obtain ⟨f, hf, rfl⟩ := gives_inFunction.1 h
    obtain ⟨-, rfl⟩ := Function.labelOf_gives.1 hf
    exact ⟨trivial, .refl⟩
  | startBlock b =>
    intro s a s' h
    obtain ⟨f, hf, rfl⟩ := gives_startBlock.1 h
    obtain ⟨-, -, -, rfl⟩ := Function.appendBlock_gives hf
    exact ⟨trivial, .single (.startBlock s b)⟩
  | emit hop =>
    intro s a s' h
    obtain ⟨f, hf, rfl⟩ := gives_emit.1 h
    obtain ⟨x, ty, -, hx, hopen, -, -, -, -, rfl⟩ := Function.pushInstruction_gives hf
    exact ⟨trivial, .single (.emit hx hopen _ ty)⟩
  | leave hcond =>
    intro s a s' h
    obtain ⟨f, hf, rfl⟩ := gives_leave.1 h
    obtain ⟨-, x, ⟨hx, hopen⟩, rfl⟩ := Function.setExit_gives.1 hf
    exact ⟨trivial, .single (.leave hx hopen _)⟩
  | setReturnSlot _ =>
    intro s a s' h
    obtain ⟨f, hf, rfl⟩ := gives_inFunction.1 h
    obtain rfl := gives_modify.1 hf
    exact ⟨trivial, .single (.setReturnSlot s _)⟩
  | setReturn u b _ =>
    intro s a s' h
    obtain ⟨f, hf, rfl⟩ := gives_inFunction.1 h
    obtain ⟨x, ty, hx, hopen, -, -, rfl⟩ := Function.setReturn_gives hf
    exact ⟨trivial, .single (.setReturn hx hopen _)⟩

theorem Made.grows {α : Type} {x : Lowering α} {P : α → Prop} (h : Made (fun _ => True) x P) {s s' : LoweringState}
    {a : α} (hrun : Gives x s a s') : s.function.Grows s'.function :=
  (h.effects hrun).2.grows

end Lowering

/-- **A definition is lowered by effects**, from the function that has its arguments and its first two blocks. -/
theorem CompilationUnit.defineFunction_effects {u u' : CompilationUnit} {item : FunctionItem}
    {arguments : List LoweredType} {result : LoweredType} {d : Function}
    (h : Gives (defineFunction item arguments result) u d u') :
    ∃ (f : Function) (s' : LoweringState), f.Fresh arguments ∧ d.name = item.signature.name ∧
      LoweringState.Effects ⟨u, f.opened, ⟨0⟩, ⟨1⟩, [[]]⟩ s' ∧ s'.function = d ∧ s'.unit = u' := by
  obtain ⟨hd, entry, endBlock, f₁, s', ho, hl, rfl, rfl⟩ := defineFunction_gives h
  obtain ⟨hf, hn, -, -⟩ := Function.fresh_definition hd
  obtain ⟨rfl, rfl, rfl⟩ := Function.openBody_gives hf ho
  have hmade : Lowering.Made (fun _ => True) (Lowering.lowerFunctionBody item) fun _ => True :=
    .lowerFunctionBody (fun _ => trivial) item
  have heffects := (hmade.effects hl).2
  exact ⟨_, s', hf, heffects.grows.name.trans hn, heffects, rfl, rfl⟩

end BlockForm
