import BlockForm.Proofs.Bodies

/-!
# BlockForm.Proofs.Registry — the names of a function

An argument, a result and a label each stand for an object of their function, and the name table leads from the
identifier of such a value to its object (`Function.Registered`).  Identifiers are written from two counters and
no text is written twice, so the next name is always free.  `Function.Change` lists all that building steps do to a
function; every one of them keeps the names in order.
-/

namespace BlockForm

/-! ## Identifiers -/

/-- The identifier of variable number `k`. -/
def variableText (k : Nat) : String := "$" ++ k.repr

/-- The identifier of label number `k`. -/
def labelText (k : Nat) : String := "%label_" ++ k.repr

/-- A number can be read off its text. -/
theorem append_repr_inj (start : String) {m n : Nat} (h : start ++ m.repr = start ++ n.repr) : m = n := by
  have hrepr : m.repr = n.repr := (String.append_right_inj start).1 h
  have hdigits : Nat.toDigits 10 m = Nat.toDigits 10 n := by
    rw [← Nat.toList_repr, hrepr, Nat.toList_repr]
  rw [← Nat.ofDigitChars_ten_toDigits (n := m), hdigits, Nat.ofDigitChars_ten_toDigits]

theorem variableText_inj {m n : Nat} (h : variableText m = variableText n) : m = n := append_repr_inj "$" h

theorem labelText_inj {m n : Nat} (h : labelText m = labelText n) : m = n := append_repr_inj "%label_" h

theorem variableText_ne_labelText (m n : Nat) : variableText m ≠ labelText n := by
  intro h
  have hlist := congrArg String.toList h
  simp [variableText, labelText] at hlist

/-! ## Objects and their values -/

/-- The object that a value stands for: the argument, the instruction or the block it names. -/
def Value.object? (x : Value) : Option Object :=
  match x.kind with
  | .argument p => some (.argument p)
  | .result i => some (.instruction i)
  | .label b => some (.block b)
  | .constant _ | .literal _ _ | .nil => none

namespace Function

variable {f g : Function}

/-- The value that stands for an object of the function; an instruction without a result has none. -/
def valueOf? (f : Function) : Object → Option ValueId
  | .argument p => f.argumentValue? p
  | .instruction i => (f.instruction? i).bind fun x => if x.value = nilValue then none else some x.value
  | .block b => (f.block? b).map Block.label
  | .global _ | .typedef _ | .function _ => none

/-- The text has been given out as the identifier of such an object. -/
def Spelled (f : Function) (n : String) : Object → Prop
  | .block _ => ∃ k < f.nextLabel, n = labelText k
  | _ => ∃ k < f.nextVariable, n = variableText k

/-- The name table holds the objects of the function, each under the identifier of its value. -/
structure Registered (f : Function) : Prop where
  /-- The first value is the absent one, and no other is. -/
  absent : f.value? nilValue = some .nil
  only : ∀ {v x}, f.value? v = some x → x.kind = .nil → v = nilValue
  /-- An object and its value point at each other. -/
  objects : ∀ {o v}, f.valueOf? o = some v ↔ ∃ x, f.value? v = some x ∧ x.object? = some o
  names : ∀ {n o}, f.names.get? n = some o ↔ ∃ v x, f.value? v = some x ∧ x.object? = some o ∧ x.id = n
  spelled : ∀ {v x o}, f.value? v = some x → x.object? = some o → f.Spelled x.id o

/-- A text that was given out stays so. -/
theorem Spelled.mono {n : String} {o : Object} (h : f.Spelled n o) (hl : f.nextLabel ≤ g.nextLabel)
    (hv : f.nextVariable ≤ g.nextVariable) : g.Spelled n o := by
  cases o with
  | block b =>
    obtain ⟨k, hk, hn⟩ := h
    exact ⟨k, by omega, hn⟩
  | _ =>
    obtain ⟨k, hk, hn⟩ := h
    exact ⟨k, by omega, hn⟩

theorem value?_nextValue : f.value? f.nextValue = none := by simp [value?, nextValue]

namespace Registered

/-- Two values that stand for objects and have the same identifier are one value. -/
theorem value_unique (h : Registered f) {v w : ValueId} {x y : Value} {o p : Object} (hx : f.value? v = some x)
    (hy : f.value? w = some y) (ho : x.object? = some o) (hp : y.object? = some p) (hid : x.id = y.id) : v = w := by
  have hname : f.names.get? x.id = some o := h.names.2 ⟨v, x, hx, ho, rfl⟩
  have hname' : f.names.get? x.id = some p := h.names.2 ⟨w, y, hy, hp, hid.symm⟩
  obtain rfl : o = p := Option.some.inj (hname.symm.trans hname')
  have hv : f.valueOf? o = some v := h.objects.2 ⟨x, hx, ho⟩
  have hw : f.valueOf? o = some w := h.objects.2 ⟨y, hy, hp⟩
  exact Option.some.inj (hv.symm.trans hw)

/-- The next variable has a name of its own. -/
theorem variableName_free (h : Registered f) : f.names.get? f.variableName = none := by
  by_contra hne
  obtain ⟨o, ho⟩ := Option.ne_none_iff_exists'.1 hne
  obtain ⟨v, x, hx, hxo, hid⟩ := h.names.1 ho
  have hs := h.spelled hx hxo
  rw [hid] at hs
  cases o with
  | block b =>
    obtain ⟨k, -, hk⟩ := hs
    exact variableText_ne_labelText _ _ hk
  | _ =>
    obtain ⟨k, hlt, hk⟩ := hs
    have := variableText_inj hk
    omega

/-- The next block has a label of its own. -/
theorem labelName_free (h : Registered f) : f.names.get? f.labelName = none := by
  by_contra hne
  obtain ⟨o, ho⟩ := Option.ne_none_iff_exists'.1 hne
  obtain ⟨v, x, hx, hxo, hid⟩ := h.names.1 ho
  have hs := h.spelled hx hxo
  rw [hid] at hs
  cases o with
  | block b =>
    obtain ⟨k, hlt, hk⟩ := hs
    have := labelText_inj hk
    omega
  | _ =>
    obtain ⟨k, -, hk⟩ := hs
    exact variableText_ne_labelText _ _ hk.symm

/-! ## What keeps the names in order -/

/-- Only the values, the values of objects, the names and the counters matter. -/
theorem congr (h : Registered f) (hv : g.values = f.values) (ho : ∀ o, g.valueOf? o = f.valueOf? o)
    (hn : g.names = f.names) (hl : g.nextLabel = f.nextLabel) (hk : g.nextVariable = f.nextVariable) :
    Registered g := by
  have hv' : ∀ v, g.value? v = f.value? v := fun v => by simp only [value?, hv]
  refine ⟨?_, ?_, ?_, ?_, ?_⟩ <;> simp only [hv', ho, hn]
  · exact h.absent
  · exact h.only
  · exact h.objects
  · exact h.names
  · intro v x o hx hxo
    exact (h.spelled hx hxo).mono (by omega) (by omega)

/-- A value that stands for no object needs no name. -/
theorem withValue (h : Registered f) {x : Value} (ho : x.object? = none) (hk : x.kind ≠ .nil) :
    Registered (f.withValue x) := by
  have hnew : ∀ {v y}, (f.withValue x).value? v = some y → f.value? v = some y ∨ y = x := by
    intro v y hy
    rw [value?_withValue] at hy
    split at hy
    · exact Or.inr (Option.some.inj hy).symm
    · exact Or.inl hy
  have hmem : ∀ {v y o}, (f.withValue x).value? v = some y ∧ y.object? = some o ↔
      f.value? v = some y ∧ y.object? = some o := by
    intro v y o
    constructor
    · rintro ⟨hy, hyo⟩
      rcases hnew hy with hy | rfl
      · exact ⟨hy, hyo⟩
      · rw [ho] at hyo
        cases hyo
    · rintro ⟨hy, hyo⟩
      exact ⟨(grows_withValue x).value? hy, hyo⟩
  refine ⟨(grows_withValue x).value? h.absent, ?_, ?_, ?_, ?_⟩
  · intro v y hy hyk
    rcases hnew hy with hy | rfl
    · exact h.only hy hyk
    · exact absurd hyk hk
  · intro o v
    simp only [hmem]
    exact h.objects
  · intro n o
    simp only [← and_assoc, hmem]
    simp only [and_assoc]
    exact h.names
  · intro v y o hy hyo
    exact h.spelled (hmem.1 ⟨hy, hyo⟩).1 hyo

/-- A new object with its value, registered under a free name. -/
theorem enter (h : Registered f) {x : Value} {o : Object} (hx : x.object? = some o)
    (hv : ∀ v, g.value? v = if v = f.nextValue then some x else f.value? v)
    (ho : ∀ p, g.valueOf? p = if p = o then some f.nextValue else f.valueOf? p)
    (hnew : f.valueOf? o = none) (hfree : f.names.get? x.id = none) (hn : g.names = f.names.insert x.id o)
    (hl : f.nextLabel ≤ g.nextLabel) (hk : f.nextVariable ≤ g.nextVariable) (hs : g.Spelled x.id o) :
    Registered g := by
  have hold : ∀ {v y}, f.value? v = some y → g.value? v = some y := by
    intro v y hy
    rw [hv, if_neg, hy]
    rintro rfl
    rw [value?_nextValue] at hy
    cases hy
  have hself : g.value? f.nextValue = some x := by rw [hv, if_pos rfl]
  have hcases : ∀ {v y}, g.value? v = some y → f.value? v = some y ∨ (v = f.nextValue ∧ y = x) := by
    intro v y hy
    rw [hv] at hy
    split at hy
    · next hvn => exact Or.inr ⟨hvn, (Option.some.inj hy).symm⟩
    · exact Or.inl hy
  have habsent : ∀ {v y}, f.value? v = some y → y.object? ≠ some o := by
    intro v y hy hyo
    have := h.objects.2 ⟨y, hy, hyo⟩
    rw [hnew] at this
    cases this
  refine ⟨hold h.absent, ?_, ?_, ?_, ?_⟩
  · intro v y hy hyk
    rcases hcases hy with hy | ⟨-, rfl⟩
    · exact h.only hy hyk
    · simp [Value.object?, hyk] at hx
  · intro p v
    rw [ho]
    by_cases hp : p = o
    · subst hp
      rw [if_pos rfl]
      constructor
      · rintro ⟨⟩
        exact ⟨x, hself, hx⟩
      · rintro ⟨y, hy, hyo⟩
        rcases hcases hy with hy | ⟨rfl, -⟩
        · exact absurd hyo (habsent hy)
        · rfl
    · rw [if_neg hp, h.objects]
      constructor
      · rintro ⟨y, hy, hyo⟩
        exact ⟨y, hold hy, hyo⟩
      · rintro ⟨y, hy, hyo⟩
        rcases hcases hy with hy | ⟨-, rfl⟩
        · exact ⟨y, hy, hyo⟩
        · exact absurd (Option.some.inj (hyo.symm.trans hx)) hp
  · intro n p
    rw [hn, Table.get?_insert]
    by_cases hid : n = x.id
    · subst hid
      rw [if_pos rfl]
      constructor
      · rintro ⟨⟩
        exact ⟨_, x, hself, hx, rfl⟩
      · rintro ⟨v, y, hy, hyo, hyid⟩
        rcases hcases hy with hy | ⟨-, rfl⟩
        · have := h.names.2 ⟨v, y, hy, hyo, hyid⟩
          rw [hfree] at this
          cases this
        · rw [← hx, ← hyo]
    · rw [if_neg hid, h.names]
      constructor
      · rintro ⟨v, y, hy, hyo, hyid⟩
        exact ⟨v, y, hold hy, hyo, hyid⟩
      · rintro ⟨v, y, hy, hyo, hyid⟩
        rcases hcases hy with hy | ⟨-, rfl⟩
        · exact ⟨v, y, hy, hyo, hyid⟩
        · exact absurd hyid.symm hid
  · intro v y p hy hyp
    rcases hcases hy with hy | ⟨-, rfl⟩
    · exact (h.spelled hy hyp).mono hl hk
    · obtain rfl := Option.some.inj (hyp.symm.trans hx)
      exact hs

theorem withLabel (h : Registered f) : Registered f.withLabel := by
  refine h.enter (o := .block f.nextBlock) (x := ⟨.label f.nextBlock, none, f.labelName⟩) rfl value?_withLabel ?_ ?_
    h.labelName_free rfl (Nat.le_succ _) (Nat.le_refl _) ⟨f.nextLabel, Nat.lt_succ_self _, rfl⟩
  · intro p
    cases p with
    | block b =>
      simp only [valueOf?, block?_withLabel_eq, Object.block.injEq]
      split <;> rfl
    | _ => rfl
  · simp [valueOf?, block?, nextBlock]

theorem withInstruction (h : Registered f) (operation : Operation) (ty : Option LoweredType) :
    Registered (f.withInstruction operation ty) := by
  have hnext : f.instruction? f.nextInstruction = none := by simp [instruction?, nextInstruction]
  cases ty with
  | none =>
    refine h.congr rfl ?_ rfl rfl rfl
    intro p
    cases p with
    | instruction i =>
      simp only [valueOf?, instruction?_withInstruction]
      split
      · next hi => simp [hi, hnext, resultValue]
      · rfl
    | _ => rfl
  | some ty =>
    refine h.enter (o := .instruction f.nextInstruction) (x := ⟨.result f.nextInstruction, some ty, f.variableName⟩)
      rfl (fun v => by simp [value?_withInstruction]) ?_ ?_ h.variableName_free rfl (Nat.le_refl _) (Nat.le_succ _)
      ⟨f.nextVariable, Nat.lt_succ_self _, rfl⟩
    · intro p
      cases p with
      | instruction i =>
        simp only [valueOf?, instruction?_withInstruction, Object.instruction.injEq]
        split
        · have hne : f.nextValue ≠ nilValue := by
            intro heq
            have hnil := h.absent
            rw [← heq, value?_nextValue] at hnil
            cases hnil
          simp [resultValue, hne]
        · rfl
      | _ => rfl
    · simp [valueOf?, hnext]

theorem withArgument (h : Registered f) (ty : LoweredType) : Registered (f.withArgument f.argumentValues.size ty) := by
  refine h.enter (o := .argument f.argumentValues.size)
    (x := ⟨.argument f.argumentValues.size, some ty, f.variableName⟩) rfl (value?_withValue _) ?_ ?_
    h.variableName_free rfl (Nat.le_refl _) (Nat.le_succ _) ⟨f.nextVariable, Nat.lt_succ_self _, rfl⟩
  · intro p
    cases p with
    | argument i =>
      simp only [valueOf?, argumentValue?, Function.withArgument, Object.argument.injEq]
      rw [Array.getElem?_push]
    | _ => rfl
  · simp [valueOf?, argumentValue?]

/-- A block that is changed keeps its label. -/
theorem put (h : Registered f) {b : BlockId} {x y : Block} (hx : f.block? b = some x) (hl : y.label = x.label) :
    Registered (f.put b y) := by
  refine h.congr rfl ?_ rfl rfl rfl
  intro p
  cases p with
  | block c =>
    simp only [valueOf?, block?_put hx]
    split
    · next hc => rw [hc, hx, Option.map_some, Option.map_some, hl]
    · rfl
  | _ => rfl

end Registered

/-! ## One change -/

/-- All that happens to a function after its arguments are made, one thing at a time. -/
inductive Change (f : Function) : Function → Prop where
  /-- Nothing happens. -/
  | none : Change f f
  /-- A constant is made. -/
  | constant (c : Constant) (e : Elementary) : Change f (f.withValue ⟨.constant c, some (.elementary e), c.text⟩)
  /-- The value of a literal is made. -/
  | literal (id : GlobalId) (l : Global) : Change f (f.withLiteral id ⟨.literal id l.content, some l.ty, l.name⟩)
  /-- A block is made. -/
  | label : Change f f.withLabel
  /-- A block is placed, for the first time. -/
  | place {b : BlockId} (hb : b ∉ f.blockIds) : Change f (f.place b)
  /-- An instruction is added to an open block. -/
  | emit {b : BlockId} {x : Block} (hx : f.block? b = some x) (hopen : x.exit = Option.none)
      (op : Operation) (ty : Option LoweredType) : Change f (f.withEmitted b x op ty)
  /-- An open block gets its exit. -/
  | leave {b : BlockId} {x : Block} (hx : f.block? b = some x) (hopen : x.exit = Option.none) (e : Exit) :
      Change f (f.withExit b x e)
  /-- An open block gets a return. -/
  | give {b : BlockId} {x : Block} (hx : f.block? b = some x) (hopen : x.exit = Option.none)
      (value : Option ValueId) : Change f (f.withReturn b x value)

namespace Change

theorem grows (h : Change f g) : f.Grows g := by
  cases h with
  | none => exact .refl _
  | constant => exact grows_withValue _
  | literal => exact grows_withLiteral _ _
  | label => exact grows_withLabel
  | place => exact grows_place _
  | emit hx hopen => exact grows_withEmitted hx hopen _ _
  | leave hx hopen => exact grows_withExit hx hopen _
  | give hx hopen => exact grows_withReturn hx hopen _

/-- **Every change keeps the names in order.** -/
theorem registered (h : Change f g) (hf : Registered f) : Registered g := by
  cases h with
  | none => exact hf
  | constant => exact hf.withValue rfl nofun
  | literal id l =>
    have hv := hf.withValue (x := ⟨.literal id l.content, some l.ty, l.name⟩) rfl nofun
    exact hv.congr rfl (fun o => by cases o <;> rfl) rfl rfl rfl
  | label => exact hf.withLabel
  | place => exact hf.congr rfl (fun o => by cases o <;> rfl) rfl rfl rfl
  | @emit b x hx hopen op ty =>
    have hi := hf.withInstruction op ty
    exact hi.put (x := x) (by rw [block?_withInstruction, hx]) rfl
  | leave hx => exact hf.put hx rfl
  | @give b x hx hopen value =>
    have hi := hf.withInstruction (.give value) Option.none
    exact hi.put (x := x) (by rw [block?_withInstruction, hx]) rfl

/-- No block is placed twice. -/
theorem nodup (h : Change f g) (hf : f.blockIds.Nodup) : g.blockIds.Nodup := by
  cases h with
  | @place b hb =>
    cases hl : f.layout with
    | none => simp [blockIds, Function.place, hl]
    | some l =>
      rw [blockIds_place hl, List.nodup_append]
      refine ⟨hf, List.nodup_singleton b, ?_⟩
      intro a ha c hc hac
      rw [List.mem_singleton.1 hc] at hac
      exact hb (hac ▸ ha)
  | @emit b x hx hopen op ty => cases ty <;> exact hf
  | _ => exact hf

end Change

end Function

end BlockForm
