import BlockForm.Code.Printer
import BlockForm.Proofs.WellTyped

/-!
# BlockForm.Proofs.Correspondence — the same function in two units

Two units that hold the same typedefs and literals, made in another order, have other handles for them.  A lowered type
of one unit matches one of the other if both are the same elementary type or typedefs under the same key; values,
instructions and functions match if they differ in such handles only.  In units whose typedefs match, matching
functions have the same text (`Function.Matches.text_eq`).
-/

namespace BlockForm

/-- Lists that are related position by position. -/
theorem rel_getElem? {α β : Type} {R : α → β → Prop} {as : List α} {bs : List β} (h : List.Forall₂ R as bs) (i : Nat) :
    Option.Rel R as[i]? bs[i]? := by
  induction h generalizing i with
  | nil => exact .none
  | cons hab _ ih =>
    cases i with
    | zero => exact .some hab
    | succ i => exact ih i

theorem rel_push {α β : Type} {R : α → β → Prop} {as : Array α} {bs : Array β} {a : α} {b : β}
    (h : List.Forall₂ R as.toList bs.toList) (hab : R a b) :
    List.Forall₂ R (as.push a).toList (bs.push b).toList := by
  rw [Array.toList_push, Array.toList_push]
  exact List.rel_append h (.cons hab .nil)

theorem map_eq_of_forall₂ {α β γ : Type} {R : α → β → Prop} {as : List α} {bs : List β} {f : α → γ} {g : β → γ}
    (h : List.Forall₂ R as bs) (hfg : ∀ {a b}, R a b → f a = g b) : as.map f = bs.map g := by
  induction h with
  | nil => rfl
  | cons hab _ ih => rw [List.map_cons, List.map_cons, hfg hab, ih]

theorem forall₂_comp {α β γ : Type} {R : α → β → Prop} {S : β → γ → Prop} {T : α → γ → Prop} {as : List α}
    {bs : List β} {cs : List γ} (h : List.Forall₂ R as bs) (h' : List.Forall₂ S bs cs)
    (hT : ∀ {a b c}, R a b → S b c → T a c) : List.Forall₂ T as cs := by
  induction h generalizing cs with
  | nil =>
    cases h'
    exact .nil
  | cons hab _ ih =>
    cases h' with
    | cons hbc hrest => exact .cons (hT hab hbc) (ih hrest)

section Options

variable {α β γ δ : Type} {R : α → β → Prop} {o : Option α} {o' : Option β}

theorem rel_imp {S : α → β → Prop} (h : Option.Rel R o o') (hRS : ∀ {a b}, R a b → S a b) : Option.Rel S o o' := by
  cases h with
  | none => exact .none
  | some hab => exact .some (hRS hab)

theorem rel_bind {S : γ → δ → Prop} {f : α → Option γ} {g : β → Option δ} (h : Option.Rel R o o')
    (hfg : ∀ {a b}, R a b → Option.Rel S (f a) (g b)) : Option.Rel S (o.bind f) (o'.bind g) := by
  cases h with
  | none => exact .none
  | some hab => exact hfg hab

theorem bind_eq_of_rel {f : α → Option γ} {g : β → Option γ} (h : Option.Rel R o o')
    (hfg : ∀ {a b}, R a b → f a = g b) : o.bind f = o'.bind g := by
  cases h with
  | none => rfl
  | some hab => exact hfg hab

theorem elim_eq_of_rel {f : α → γ} {g : β → γ} {c : γ} (h : Option.Rel R o o') (hfg : ∀ {a b}, R a b → f a = g b) :
    o.elim c f = o'.elim c g := by
  cases h with
  | none => rfl
  | some hab => exact hfg hab

end Options

theorem Table.index_unique {α : Type} {t : Table α} {key : String} {i j : Nat} (hi : t.keys[i]? = some key)
    (hj : t.keys[j]? = some key) : i = j :=
  Option.some.inj ((indexOf?_eq_some_iff.2 hi).symm.trans (indexOf?_eq_some_iff.2 hj))

/-- What stands at a position under a key. -/
theorem Table.entry_of_key {α : Type} {t : Table α} {key : String} {i : Nat} (h : t.keys[i]? = some key) :
    ∃ a, t.at? i = some a ∧ (key, a) ∈ t.entries := by
  simp only [keys, List.getElem?_map, Option.map_eq_some_iff] at h
  obtain ⟨⟨k, a⟩, he, rfl⟩ := h
  exact ⟨a, by rw [at?, he]; rfl, List.mem_of_getElem? he⟩

/-! ## Types -/

/-- The same type in two units: elementary, or a typedef by its key. -/
inductive LoweredType.Matches (u v : CompilationUnit) : LoweredType → LoweredType → Prop where
  | elementary (e : Elementary) (isPointer : Bool) : Matches u v ⟨.elementary e, isPointer⟩ ⟨.elementary e, isPointer⟩
  | composite {i j : TypeDefId} {key : String} (isPointer : Bool) (left : u.typedefs.keys[i.index]? = some key)
      (right : v.typedefs.keys[j.index]? = some key) : Matches u v ⟨.composite i, isPointer⟩ ⟨.composite j, isPointer⟩

/-- The same typedef in two units. -/
structure TypeDef.Matches (u v : CompilationUnit) (t t' : TypeDef) : Prop where
  name : t.name = t'.name
  isUnion : t.isUnion = t'.isUnion
  members : List.Forall₂ (fun m m' => m.name = m'.name ∧ m.ty.Matches u v m'.ty) t.members t'.members

/-- Typedefs under the same key match. -/
def CompilationUnit.Alike (u v : CompilationUnit) : Prop :=
  ∀ key t t', (key, t) ∈ u.typedefs.entries → (key, t') ∈ v.typedefs.entries → t.Matches u v t'

namespace LoweredType.Matches

variable {u v v' : CompilationUnit} {a b a' b' : LoweredType}

theorem mono (h : a.Matches u v b) (hv : v.typedefs.entries <+: v'.typedefs.entries) : a.Matches u v' b := by
  cases h with
  | elementary e p => exact .elementary e p
  | composite p left right =>
    refine .composite p left ?_
    rw [← Table.indexOf?_eq_some_iff] at right ⊢
    exact Table.indexOf?_of_prefix hv right

theorem pointerTo (h : a.Matches u v b) : a.pointerTo.Matches u v b.pointerTo := by
  cases h with
  | elementary e p => exact .elementary e true
  | composite p left right => exact .composite true left right

theorem pointee (h : a.Matches u v b) : a.pointee.Matches u v b.pointee := by
  cases h with
  | elementary e p => exact .elementary e false
  | composite p left right => exact .composite false left right

theorem isPointer_eq (h : a.Matches u v b) : a.isPointer = b.isPointer := by cases h <;> rfl

theorem elementary?_eq (h : a.Matches u v b) : a.elementary? = b.elementary? := by cases h <;> rfl

theorem isComposite_eq (h : a.Matches u v b) : a.isComposite = b.isComposite := by cases h <;> rfl

theorem isNil_eq (h : a.Matches u v b) : a.isNil = b.isNil := by
  rw [isNil, isNil, h.elementary?_eq, h.isPointer_eq]

theorem isBool_eq (h : a.Matches u v b) : a.isBool = b.isBool := by
  rw [isBool, isBool, h.elementary?_eq, h.isPointer_eq]

theorem isInteger_eq (h : a.Matches u v b) : a.isInteger = b.isInteger := by
  rw [isInteger, isInteger, h.elementary?_eq, h.isPointer_eq]

theorem isNumeric_eq (h : a.Matches u v b) : a.isNumeric = b.isNumeric := by
  rw [isNumeric, isNumeric, h.elementary?_eq, h.isPointer_eq]

theorem isScalar_eq (h : a.Matches u v b) : a.isScalar = b.isScalar := by
  rw [isScalar, isScalar, isElementary, isElementary, h.elementary?_eq, h.isPointer_eq]

theorem asArgument (h : a.Matches u v b) : a.asArgument.Matches u v b.asArgument := by
  unfold LoweredType.asArgument
  rw [h.isComposite_eq]
  split
  · exact h.pointerTo
  · exact h

/-- Kinds are told apart in both units alike. -/
theorem kind_eq_iff (h : a.Matches u v b) (h' : a'.Matches u v b') : a.kind = a'.kind ↔ b.kind = b'.kind := by
  cases h with
  | elementary e p =>
    cases h' with
    | elementary e' p' => exact Iff.rfl
    | composite p' left right => exact ⟨nofun, nofun⟩
  | composite p left right =>
    cases h' with
    | elementary e' p' => exact ⟨nofun, nofun⟩
    | composite p' left' right' =>
      simp only [LoweredKind.composite.injEq]
      constructor
      · rintro rfl
        obtain rfl := Option.some.inj (left.symm.trans left')
        exact congrArg Handle.mk (Table.index_unique right right')
      · rintro rfl
        obtain rfl := Option.some.inj (right.symm.trans right')
        exact congrArg Handle.mk (Table.index_unique left left')

theorem eq_iff (h : a.Matches u v b) (h' : a'.Matches u v b') : a = a' ↔ b = b' := by
  have hk := h.kind_eq_iff h'
  have hp : a.isPointer = a'.isPointer ↔ b.isPointer = b'.isPointer := by rw [h.isPointer_eq, h'.isPointer_eq]
  cases a
  cases a'
  cases b
  cases b'
  simp only [LoweredType.mk.injEq]
  exact and_congr hk hp

theorem sameKind_eq (h : a.Matches u v b) (h' : a'.Matches u v b') : a.sameKind a' = b.sameKind b' := by
  rw [sameKind, sameKind, Bool.eq_iff_iff, beq_iff_eq, beq_iff_eq]
  exact h.kind_eq_iff h'

/-- The typedefs that matching types refer to. -/
theorem typedefs (h : a.Matches u v b) (huv : u.Alike v) {i : TypeDefId} (hi : a.typedef? = some i) :
    ∃ t j t', u.typedefAt? i = some t ∧ b.typedef? = some j ∧ v.typedefAt? j = some t' ∧ t.Matches u v t' := by
  cases h with
  | elementary e p => cases hi
  | @composite i' j key p left right =>
    obtain rfl : i' = i := Option.some.inj hi
    obtain ⟨t, ht, hmem⟩ := Table.entry_of_key left
    obtain ⟨t', ht', hmem'⟩ := Table.entry_of_key right
    exact ⟨t, j, t', ht, rfl, ht', huv key t t' hmem hmem'⟩

theorem typeText_eq (h : a.Matches u v b) (huv : u.Alike v) : u.typeText a = v.typeText b := by
  have hall := fun i => h.typedefs huv (i := i)
  cases h with
  | elementary e p => rfl
  | @composite i j key p left right =>
    obtain ⟨t, _, t', ht, hj, ht', hm⟩ := hall i rfl
    cases hj
    simp only [CompilationUnit.typeText, ht, ht', hm.name]

end LoweredType.Matches

/-! ## Functions -/

/-- The same kind of value in two units: a literal by its content. -/
inductive ValueKind.Matches : ValueKind → ValueKind → Prop where
  | same (kind : ValueKind) : Matches kind kind
  | literal (i j : GlobalId) (content : String) : Matches (.literal i content) (.literal j content)

/-- The same value in two units. -/
structure Value.Matches (u v : CompilationUnit) (x y : Value) : Prop where
  kind : x.kind.Matches y.kind
  ty : Option.Rel (LoweredType.Matches u v) x.ty y.ty
  id : x.id = y.id

/-- The same operation in two units. -/
inductive Operation.Matches (u v : CompilationUnit) : Operation → Operation → Prop where
  | alloca {a b : LoweredType} (count : Nat) (ty : a.Matches u v b) : Matches u v (.alloca a count) (.alloca b count)
  | convert {a b : LoweredType} (value : ValueId) (ty : a.Matches u v b) :
      Matches u v (.convert value a) (.convert value b)
  | same {operation : Operation} (types : operation.types = []) : Matches u v operation operation

/-- The same instruction in two units. -/
structure Instruction.Matches (u v : CompilationUnit) (i j : Instruction) : Prop where
  operation : i.operation.Matches u v j.operation
  value : i.value = j.value

/-- The same function in two units. -/
structure Function.Matches (u v : CompilationUnit) (f g : Function) : Prop where
  name : f.name = g.name
  arguments : List.Forall₂ (LoweredType.Matches u v) f.arguments g.arguments
  returnType : f.returnType.Matches u v g.returnType
  layout : f.layout = g.layout
  blocks : f.blocks = g.blocks
  instructions : List.Forall₂ (Instruction.Matches u v) f.instructions.toList g.instructions.toList
  values : List.Forall₂ (Value.Matches u v) f.values.toList g.values.toList
  names : f.names = g.names
  argumentValues : f.argumentValues = g.argumentValues
  endLabel : f.endLabel = g.endLabel
  returnSlot : f.returnSlot = g.returnSlot
  literals : List.Forall₂ (fun p q => p.2 = q.2 ∧ ∃ content, u.globals.keys[p.1.index]? = some content ∧
    v.globals.keys[q.1.index]? = some content) f.literals g.literals
  nextVariable : f.nextVariable = g.nextVariable
  nextLabel : f.nextLabel = g.nextLabel

theorem ValueKind.Matches.constant?_eq {x y : Value} (h : x.kind.Matches y.kind) : x.constant? = y.constant? := by
  unfold Value.constant?
  generalize x.kind = k at h ⊢
  generalize y.kind = k' at h ⊢
  cases h <;> rfl

theorem ValueKind.Matches.label?_eq {x y : Value} (h : x.kind.Matches y.kind) : x.label? = y.label? := by
  unfold Value.label?
  generalize x.kind = k at h ⊢
  generalize y.kind = k' at h ⊢
  cases h <;> rfl

namespace Operation.Matches

variable {u v v' : CompilationUnit} {op op' : Operation}

theorem mono (h : op.Matches u v op') (hv : v.typedefs.entries <+: v'.typedefs.entries) : op.Matches u v' op' := by
  cases h with
  | alloca count ty => exact .alloca count (ty.mono hv)
  | convert value ty => exact .convert value (ty.mono hv)
  | same types => exact .same types

theorem mnemonic_eq (h : op.Matches u v op') : op.mnemonic = op'.mnemonic := by cases h <;> rfl

theorem isTerminator_eq (h : op.Matches u v op') : op.isTerminator = op'.isTerminator := by cases h <;> rfl

end Operation.Matches

namespace Function.Matches

variable {u v v' : CompilationUnit} {f g : Function}

theorem mono (h : f.Matches u v g) (ht : v.typedefs.entries <+: v'.typedefs.entries)
    (hg : v.globals.entries <+: v'.globals.entries) : f.Matches u v' g where
  name := h.name
  arguments := h.arguments.imp fun _ _ hab => hab.mono ht
  returnType := h.returnType.mono ht
  layout := h.layout
  blocks := h.blocks
  instructions := h.instructions.imp fun _ _ hij => ⟨hij.operation.mono ht, hij.value⟩
  values := h.values.imp fun _ _ hxy => ⟨hxy.kind, rel_imp hxy.ty fun hab => hab.mono ht, hxy.id⟩
  names := h.names
  argumentValues := h.argumentValues
  endLabel := h.endLabel
  returnSlot := h.returnSlot
  literals := h.literals.imp fun _ _ ⟨hv, content, hl, hr⟩ => by
    refine ⟨hv, content, hl, ?_⟩
    rw [← Table.indexOf?_eq_some_iff] at hr ⊢
    exact Table.indexOf?_of_prefix hg hr
  nextVariable := h.nextVariable
  nextLabel := h.nextLabel

theorem value? (h : f.Matches u v g) (x : ValueId) : Option.Rel (Value.Matches u v) (f.value? x) (g.value? x) := by
  have := rel_getElem? h.values x.index
  rwa [Array.getElem?_toList, Array.getElem?_toList] at this

theorem instruction? (h : f.Matches u v g) (i : InstructionId) :
    Option.Rel (Instruction.Matches u v) (f.instruction? i) (g.instruction? i) := by
  have := rel_getElem? h.instructions i.index
  rwa [Array.getElem?_toList, Array.getElem?_toList] at this

theorem valueType? (h : f.Matches u v g) (x : ValueId) :
    Option.Rel (LoweredType.Matches u v) (f.valueType? x) (g.valueType? x) :=
  rel_bind (h.value? x) fun hxy => hxy.ty

theorem constant?_eq (h : f.Matches u v g) (x : ValueId) : f.constant? x = g.constant? x :=
  bind_eq_of_rel (h.value? x) fun hxy => hxy.kind.constant?_eq

theorem labelTarget?_eq (h : f.Matches u v g) (x : ValueId) : f.labelTarget? x = g.labelTarget? x :=
  bind_eq_of_rel (h.value? x) fun hxy => hxy.kind.label?_eq

theorem block?_eq (h : f.Matches u v g) (b : BlockId) : f.block? b = g.block? b := by
  rw [Function.block?, Function.block?, h.blocks]

theorem isDeclaration_eq (h : f.Matches u v g) : f.isDeclaration = g.isDeclaration := by
  rw [Function.isDeclaration, Function.isDeclaration, h.layout]

/-! ## Texts -/

theorem idText_eq (h : f.Matches u v g) : f.idText = g.idText := by
  funext x
  exact elim_eq_of_rel (h.value? x) fun hxy => hxy.id

theorem operationArguments_eq (h : f.Matches u v g) (huv : u.Alike v) {op op' : Operation} (hop : op.Matches u v op') :
    f.operationArguments u op = g.operationArguments v op' := by
  cases hop with
  | alloca count ty => simp only [Function.operationArguments, ty.typeText_eq huv]
  | convert value ty => simp only [Function.operationArguments, ty.typeText_eq huv, h.idText_eq]
  | same types => cases op <;> simp_all [Function.operationArguments, Operation.types, h.idText_eq]

theorem instructionText_eq (h : f.Matches u v g) (huv : u.Alike v) {i j : Instruction} (hij : i.Matches u v j) :
    f.instructionText u i = g.instructionText v j := by
  simp only [Function.instructionText, hij.operation.mnemonic_eq, hij.value, h.operationArguments_eq huv hij.operation,
    h.idText_eq]

theorem exitText_eq (h : f.Matches u v g) (huv : u.Alike v) (e : Exit) : f.exitText u e = g.exitText v e := by
  cases e with
  | branch target => simp only [Function.exitText, h.idText_eq]
  | condBranch condition taken otherwise => simp only [Function.exitText, h.idText_eq]
  | give id => exact elim_eq_of_rel (h.instruction? id) fun hij => h.instructionText_eq huv hij
  | unreachable => rfl

theorem instructionTexts_eq (h : f.Matches u v g) (huv : u.Alike v) (ids : List InstructionId) :
    (ids.filterMap f.instruction?).map (f.instructionText u) =
      (ids.filterMap g.instruction?).map (g.instructionText v) := by
  refine map_eq_of_forall₂ (R := Instruction.Matches u v) ?_ fun hij => h.instructionText_eq huv hij
  refine List.rel_filterMap (R := Eq) ?_ (List.forall₂_eq_eq_eq ▸ rfl)
  rintro i _ rfl
  exact h.instruction? i

theorem blockLines_eq (h : f.Matches u v g) (huv : u.Alike v) (b : Block) : f.blockLines u b = g.blockLines v b := by
  have hexit : f.exitText u = g.exitText v := funext (h.exitText_eq huv)
  simp only [Function.blockLines, Function.instructionsOf, h.instructionTexts_eq huv, h.idText_eq, hexit]

theorem argumentTexts_eq (h : f.Matches u v g) (huv : u.Alike v) {tys tys' : List LoweredType}
    (ht : List.Forall₂ (LoweredType.Matches u v) tys tys') (position : Nat) :
    f.argumentTexts u position tys = g.argumentTexts v position tys' := by
  induction ht generalizing position with
  | nil => rfl
  | cons hab _ ih =>
    simp only [Function.argumentTexts, Function.argumentValue?, h.argumentValues, h.idText_eq, hab.typeText_eq huv, ih]

theorem signatureText_eq (h : f.Matches u v g) (huv : u.Alike v) : f.signatureText u = g.signatureText v := by
  have hargs : f.arguments.map u.typeText = g.arguments.map v.typeText :=
    map_eq_of_forall₂ h.arguments fun hab => hab.typeText_eq huv
  simp only [Function.signatureText, h.isDeclaration_eq, h.name, hargs, h.argumentTexts_eq huv h.arguments,
    h.returnType.typeText_eq huv]

/-- **Matching functions have the same text.** -/
theorem text_eq (h : f.Matches u v g) (huv : u.Alike v) : u.functionText f = v.functionText g := by
  have hblocks : f.placedBlocks = g.placedBlocks := by
    rw [Function.placedBlocks, Function.placedBlocks, Function.blockIds, Function.blockIds, h.layout,
      funext h.block?_eq]
  have hlines : f.blockLines u = g.blockLines v := funext (h.blockLines_eq huv)
  simp only [CompilationUnit.functionText, Function.lines, h.signatureText_eq huv, h.isDeclaration_eq, hblocks, hlines]

end Function.Matches

/-- Matching typedefs have the same line. -/
theorem TypeDef.Matches.line_eq {u v : CompilationUnit} {t t' : TypeDef} (h : t.Matches u v t') (huv : u.Alike v) :
    u.typedefLine t = v.typedefLine t' := by
  have hmembers : t.members.map u.memberText = t'.members.map v.memberText := by
    refine map_eq_of_forall₂ h.members fun {m m'} ⟨hn, hm⟩ => ?_
    simp only [CompilationUnit.memberText, hn, hm.typeText_eq huv]
  simp only [CompilationUnit.typedefLine, h.name, h.isUnion, hmembers]

end BlockForm
