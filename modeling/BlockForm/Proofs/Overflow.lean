import BlockForm.Proofs.Acyclicity

/-!
# BlockForm.Proofs.Overflow — sizes that no machine word holds

The size of a type is found in machine words, and nothing bounds it: typedefs share their members, so sizes multiply
from one typedef to the next.  `CompilationUnit.exactSize` is the size in unbounded numbers, and
`CompilationUnit.size?` is the computation in words with additions that are refused where they would wrap around.  In
every lowered unit no addition wraps around exactly if the exact size fits a word, and exactly then the size found is
the exact one (`Module.lower_sizes`).  Sixteen short declarations are enough for a size that does not fit
(`Sample.levels_overflow`).
-/

namespace BlockForm

open Action

/-! ## Words that are refused when they overflow -/

/-- The sum of two words, if it is a word. -/
def addWords? (a b : UInt64) : Option UInt64 := if a.toNat + b.toNat < 2 ^ 64 then some (a + b) else none

/-- Partial sums grow, so a sum is refused exactly if the whole of it is too large. -/
theorem foldlM_addWords? (ws : List UInt64) (a : UInt64) :
    ws.foldlM addWords? a =
      if a.toNat + (ws.map UInt64.toNat).sum < 2 ^ 64 then some (ws.foldl (· + ·) a) else none := by
  induction ws generalizing a with
  | nil => simp [a.toNat_lt]
  | cons w ws ih =>
    rw [List.foldlM_cons, List.foldl_cons, List.map_cons, List.sum_cons, addWords?]
    by_cases h : a.toNat + w.toNat < 2 ^ 64
    · have hadd : (a + w).toNat = a.toNat + w.toNat := by
        rw [UInt64.toNat_add]
        omega
      rw [if_pos h, Option.bind_eq_bind, Option.bind_some, ih, hadd, Nat.add_assoc]
    · rw [if_neg h, if_neg (by omega)]
      rfl

/-- The word `w` holds the number `n` if a word can, and `w?` is `w` in that case only. -/
structure Holds (n : Nat) (w : UInt64) (w? : Option UInt64) : Prop where
  exact : n < 2 ^ 64 → w.toNat = n
  checked : w? = if n < 2 ^ 64 then some w else none

theorem holds_of_toNat (w : UInt64) : Holds w.toNat w (some w) :=
  ⟨fun _ => rfl, by rw [if_pos w.toNat_lt]⟩

/-- Numbers below a bound are held by words with the same sum and the same maximum. -/
theorem map_toNat_of_holds {α : Type} {xs : List α} {size : α → Nat} {word : α → UInt64} {word? : α → Option UInt64}
    (h : ∀ x ∈ xs, Holds (size x) (word x) (word? x)) (hfit : ∀ x ∈ xs, size x < 2 ^ 64) :
    (xs.map word).map UInt64.toNat = xs.map size := by
  rw [List.map_map]
  exact List.map_congr_left fun x hx => (h x hx).exact (hfit x hx)

theorem mapM_of_holds {α : Type} {xs : List α} {size : α → Nat} {word : α → UInt64} {word? : α → Option UInt64}
    (h : ∀ x ∈ xs, Holds (size x) (word x) (word? x)) :
    xs.mapM word? = if ∀ x ∈ xs, size x < 2 ^ 64 then some (xs.map word) else none := by
  induction xs with
  | nil => simp
  | cons x xs ih =>
    rw [List.forall_mem_cons] at h
    rw [List.mapM_cons, h.1.checked, ih h.2]
    by_cases hx : size x < 2 ^ 64
    · by_cases hxs : ∀ y ∈ xs, size y < 2 ^ 64
      · have hall : ∀ y ∈ x :: xs, size y < 2 ^ 64 := List.forall_mem_cons.2 ⟨hx, hxs⟩
        rw [if_pos hx, if_pos hxs, if_pos hall]
        rfl
      · have hnot : ¬ ∀ y ∈ x :: xs, size y < 2 ^ 64 := fun hall => hxs (List.forall_mem_cons.1 hall).2
        rw [if_pos hx, if_neg hxs, if_neg hnot]
        rfl
    · have hnot : ¬ ∀ y ∈ x :: xs, size y < 2 ^ 64 := fun hall => hx (List.forall_mem_cons.1 hall).1
      rw [if_neg hx, if_neg hnot]
      rfl

/-- A sum in words. -/
theorem Holds.sum {α : Type} {xs : List α} {size : α → Nat} {word : α → UInt64} {word? : α → Option UInt64}
    (h : ∀ x ∈ xs, Holds (size x) (word x) (word? x)) :
    Holds (xs.map size).sum ((xs.map word).foldl (· + ·) 0) (xs.mapM word? >>= (·.foldlM addWords? 0)) := by
  by_cases hfit : ∀ x ∈ xs, size x < 2 ^ 64
  · have hwords := map_toNat_of_holds h hfit
    constructor
    · intro hlt
      rw [toNat_foldl_add _ _ (by simpa [hwords] using hlt), hwords]
      simp
    · rw [mapM_of_holds h, if_pos hfit, Option.bind_eq_bind, Option.bind_some, foldlM_addWords?, hwords]
      simp
  · -- one summand alone is too large
    obtain ⟨x, hx, hlarge⟩ : ∃ x ∈ xs, 2 ^ 64 ≤ size x := by simpa using hfit
    have hle : size x ≤ (xs.map size).sum := List.le_sum_of_mem (List.mem_map_of_mem hx)
    refine ⟨fun hlt => absurd hlt (by omega), ?_⟩
    rw [mapM_of_holds h, if_neg hfit, if_neg (by omega)]
    rfl

/-- A maximum in words, and a word added to it. -/
theorem Holds.max_add {α : Type} {xs : List α} {size : α → Nat} {word : α → UInt64} {word? : α → Option UInt64}
    (h : ∀ x ∈ xs, Holds (size x) (word x) (word? x)) (w : UInt64) :
    Holds ((xs.map size).foldl max 0 + w.toNat) ((xs.map word).foldl max 0 + w)
      (xs.mapM word? >>= fun ws => addWords? (ws.foldl max 0) w) := by
  by_cases hfit : ∀ x ∈ xs, size x < 2 ^ 64
  · have hmax : ((xs.map word).foldl max 0).toNat = (xs.map size).foldl max 0 := by
      rw [toNat_foldl_max, map_toNat_of_holds h hfit]
      rfl
    constructor
    · intro hlt
      rw [UInt64.toNat_add, hmax, Nat.mod_eq_of_lt hlt]
    · rw [mapM_of_holds h, if_pos hfit, Option.bind_eq_bind, Option.bind_some, addWords?, hmax]
  · obtain ⟨x, hx, hlarge⟩ : ∃ x ∈ xs, 2 ^ 64 ≤ size x := by simpa using hfit
    have hle := (le_foldl_max (xs.map size) 0).2 _ (List.mem_map_of_mem hx)
    refine ⟨fun hlt => absurd hlt (by omega), ?_⟩
    rw [mapM_of_holds h, if_neg hfit, if_neg (by omega)]
    rfl

namespace CompilationUnit

/-! ## Sizes in unbounded numbers -/

/-- The size in unbounded numbers, with at most `depth` typedefs nested in one another. -/
def exactSizeWithin (u : CompilationUnit) (depth : Nat) (ty : LoweredType) : Nat :=
  if ty.isPointer then 8
  else
    match ty.kind, depth with
    | .elementary e, _ => e.byteSize
    | .composite _, 0 => 0
    | .composite id, depth + 1 =>
      match u.typedefAt? id with
      | none => 0
      | some t =>
        let sizes := t.members.map fun m => u.exactSizeWithin depth m.ty
        if t.isUnion then sizes.foldl max 0 + 8 else sizes.sum

/-- The size in bytes in unbounded numbers: the sum of the members of a product, the largest member and a discriminant
for a union. -/
def exactSize (u : CompilationUnit) (ty : LoweredType) : Nat := u.exactSizeWithin u.typedefs.size ty

/-- The size in words, found by additions that do not wrap around, with at most `depth` typedefs nested in one
another. -/
def sizeWithin? (u : CompilationUnit) (depth : Nat) (ty : LoweredType) : Option UInt64 :=
  if ty.isPointer then some wordSize
  else
    match ty.kind, depth with
    | .elementary e, _ => some (UInt64.ofNat e.byteSize)
    | .composite _, 0 => some 0
    | .composite id, depth + 1 =>
      match u.typedefAt? id with
      | none => some 0
      | some t => do
        let sizes ← t.members.mapM fun m => u.sizeWithin? depth m.ty
        if t.isUnion then addWords? (sizes.foldl max 0) wordSize else sizes.foldlM addWords? 0

/-- The size in words, absent if an addition on the way to it overflows. -/
def size? (u : CompilationUnit) (ty : LoweredType) : Option UInt64 := u.sizeWithin? u.typedefs.size ty

variable {u : CompilationUnit}

theorem exactSizeWithin_composite {id : TypeDefId} {t : TypeDef} (ht : u.typedefAt? id = some t) (depth : Nat) :
    u.exactSizeWithin (depth + 1) (.composite id) =
      if t.isUnion then (t.members.map fun m => u.exactSizeWithin depth m.ty).foldl max 0 + 8
      else (t.members.map fun m => u.exactSizeWithin depth m.ty).sum := by
  rw [exactSizeWithin.eq_def]
  simp [LoweredType.composite, ht]

theorem sizeWithin?_composite {id : TypeDefId} {t : TypeDef} (ht : u.typedefAt? id = some t) (depth : Nat) :
    u.sizeWithin? (depth + 1) (.composite id) = (t.members.mapM fun m => u.sizeWithin? depth m.ty) >>= fun sizes =>
      if t.isUnion then addWords? (sizes.foldl max 0) wordSize else sizes.foldlM addWords? 0 := by
  rw [sizeWithin?.eq_def]
  simp [LoweredType.composite, ht]

/-- **The size in words is the exact one if that fits, and an addition overflows if it does not.** -/
theorem holds_sizeWithin (u : CompilationUnit) (depth : Nat) : ∀ l : LoweredType,
    Holds (u.exactSizeWithin depth l) (u.byteSizeWithin depth l) (u.sizeWithin? depth l) := by
  have helementary : ∀ (e : Elementary) depth, Holds (u.exactSizeWithin depth ⟨.elementary e, false⟩)
      (u.byteSizeWithin depth ⟨.elementary e, false⟩) (u.sizeWithin? depth ⟨.elementary e, false⟩) := by
    intro e depth
    have hword : (UInt64.ofNat e.byteSize).toNat = e.byteSize := by cases e <;> rfl
    have := holds_of_toNat (UInt64.ofNat e.byteSize)
    rw [hword] at this
    cases depth <;> exact this
  have haddress : ∀ (kind : LoweredKind) depth, Holds (u.exactSizeWithin depth ⟨kind, true⟩)
      (u.byteSizeWithin depth ⟨kind, true⟩) (u.sizeWithin? depth ⟨kind, true⟩) := by
    intro kind depth
    rw [exactSizeWithin.eq_def, byteSizeWithin.eq_def, sizeWithin?.eq_def]
    exact holds_of_toNat wordSize
  induction depth with
  | zero =>
    rintro ⟨e | id, _ | _⟩
    · exact helementary e 0
    · exact haddress _ 0
    · exact holds_of_toNat 0
    · exact haddress _ 0
  | succ depth ih =>
    rintro ⟨e | id, _ | _⟩
    · exact helementary e _
    · exact haddress _ _
    · cases ht : u.typedefAt? id with
      | none =>
        rw [exactSizeWithin.eq_def, byteSizeWithin.eq_def, sizeWithin?.eq_def]
        simp only [ht]
        exact holds_of_toNat 0
      | some t =>
        show Holds (u.exactSizeWithin (depth + 1) (.composite id)) (u.byteSizeWithin (depth + 1) (.composite id))
          (u.sizeWithin? (depth + 1) (.composite id))
        rw [exactSizeWithin_composite ht, byteSizeWithin_composite ht, sizeWithin?_composite ht]
        cases t.isUnion with
        | true => exact Holds.max_add (fun m _ => ih m.ty) wordSize
        | false => exact Holds.sum fun m _ => ih m.ty
    · exact haddress _ _

/-! ## Depths -/

/-- One more level changes nothing once the depth is large enough. -/
theorem Layered.exactSizeWithin_succ (hu : u.Layered) (depth : Nat) : ∀ {l : LoweredType},
    (∀ id, l.typedef? = some id → id.index < depth) → u.exactSizeWithin (depth + 1) l = u.exactSizeWithin depth l := by
  induction depth with
  | zero =>
    rintro ⟨e | id, _ | _⟩ hdepth
    · rfl
    · rfl
    · exact absurd (hdepth id rfl) (Nat.not_lt_zero _)
    · rfl
  | succ depth ih =>
    rintro ⟨e | id, _ | _⟩ hdepth
    · rfl
    · rfl
    · show u.exactSizeWithin (depth + 2) (.composite id) = u.exactSizeWithin (depth + 1) (.composite id)
      cases ht : u.typedefAt? id with
      | none =>
        rw [exactSizeWithin.eq_def, exactSizeWithin.eq_def]
        simp [LoweredType.composite, ht]
      | some t =>
        -- the members refer to typedefs before `id`
        have hmembers : ∀ m ∈ t.members, u.exactSizeWithin (depth + 1) m.ty = u.exactSizeWithin depth m.ty := by
          intro m hm
          refine ih fun j hj => ?_
          have hlt := (hu id t ht m hm).2 j hj
          have := hdepth id rfl
          omega
        rw [exactSizeWithin_composite ht, exactSizeWithin_composite ht, List.map_congr_left hmembers]
    · rfl

/-- The exact size of a typedef is made up of the exact sizes of its members. -/
theorem Layered.exactSize_composite (hu : u.Layered) {id : TypeDefId} {t : TypeDef} (ht : u.typedefAt? id = some t) :
    u.exactSize (.composite id) =
      if t.isUnion then (t.members.map fun m => u.exactSize m.ty).foldl max 0 + 8
      else (t.members.map fun m => u.exactSize m.ty).sum := by
  have hin : id.index < u.typedefs.size := by
    obtain ⟨k, hk⟩ := Table.at?_eq_some_iff.1 ht
    exact (List.getElem?_eq_some_iff.1 hk).1
  obtain ⟨depth, hdepth⟩ : ∃ depth, u.typedefs.size = depth + 1 := ⟨u.typedefs.size - 1, by omega⟩
  have hmembers : ∀ m ∈ t.members, u.exactSize m.ty = u.exactSizeWithin depth m.ty := by
    intro m hm
    rw [exactSize, hdepth]
    refine hu.exactSizeWithin_succ depth fun j hj => ?_
    have hlt := (hu id t ht m hm).2 j hj
    omega
  rw [exactSize, hdepth, exactSizeWithin_composite ht, List.map_congr_left hmembers]

end CompilationUnit

theorem Module.lower_layered {m : Module} {options : Options} {u : CompilationUnit} (h : m.lower options = .ok u) :
    u.Layered := by
  have hreach := CompilationUnit.additive_lowerProgram m (.empty m.name options)
  rw [(Module.lower_gives h).2] at hreach
  exact (hreach.layered (CompilationUnit.indexed_empty _ _) (CompilationUnit.layered_empty _ _)).2

/-- **When sizes overflow.**  In every lowered unit the exact size of a typedef is the sum of the exact sizes of its
members, or the largest of them and a discriminant for a union.  No addition on the way to its size in words overflows
exactly if the exact size is below `2 ^ 64`, and exactly then the size that the unit gives is the exact one. -/
theorem Module.lower_sizes {m : Module} {options : Options} {u : CompilationUnit} (h : m.lower options = .ok u)
    {id : TypeDefId} {t : TypeDef} (ht : u.typedefAt? id = some t) :
    let exact := u.exactSize (.composite id)
    (exact = if t.isUnion then (t.members.map fun m => u.exactSize m.ty).foldl max 0 + 8
      else (t.members.map fun m => u.exactSize m.ty).sum) ∧
    u.size? (.composite id) = (if exact < 2 ^ 64 then some (u.byteSize (.composite id)) else none) ∧
    ((u.byteSize (.composite id)).toNat = exact ↔ exact < 2 ^ 64) := by
  have hholds := u.holds_sizeWithin u.typedefs.size (.composite id)
  refine ⟨(Module.lower_layered h).exactSize_composite ht, hholds.checked, ?_, hholds.exact⟩
  intro heq
  rw [← heq]
  exact UInt64.toNat_lt _

namespace Sample

open CompilationUnit

/-- `level0` is the definition of sixteen `i64`, every further level that of sixteen values of the level below. -/
def level : Nat → Ty
  | 0 => .defined "level0" (.operator .product (List.replicate 16 (.elementary .i64)))
  | n + 1 => .defined ("level" ++ (n + 1).repr) (.operator .product (List.replicate 16 (level n)))

/-- The declarations of `level0` to `level15`. -/
def levels : Module :=
  ⟨"sample", (List.range 16).map fun n => .type ⟨"level" ++ n.repr, level n, default⟩, .empty⟩

/-- The typedef of a level. -/
def levelDef : Nat → TypeDef
  | 0 => ⟨"level0", false, List.replicate 16 ⟨none, .elementary .i64⟩⟩
  | n + 1 => ⟨"level" ++ (n + 1).repr, false, List.replicate 16 ⟨none, .composite ⟨n⟩⟩⟩

theorem levels_lower : ∃ u, levels.lower {} = .ok u ∧ ∀ n < 16, u.typedefAt? ⟨n⟩ = some (levelDef n) := by
  have hrun : (levels.lower {}).toOption.map (·.typedefs.values) = some ((List.range 16).map levelDef) := by
    decide +kernel
  obtain ⟨u, hu, hvalues⟩ := Option.map_eq_some_iff.1 hrun
  refine ⟨u, eq_ok_of_toOption hu, fun n hn => ?_⟩
  have hat : u.typedefs.values[n]? = some (levelDef n) := by
    rw [hvalues, List.getElem?_map, List.getElem?_range hn]
    rfl
  rwa [Table.values, List.getElem?_map] at hat

/-- Sizes are multiplied by sixteen from one level to the next. -/
theorem levels_exactSize {u : CompilationUnit} (hu : levels.lower {} = .ok u)
    (hat : ∀ n < 16, u.typedefAt? ⟨n⟩ = some (levelDef n)) (n : Nat) (hn : n < 16) :
    u.exactSize (.composite ⟨n⟩) = 128 * 16 ^ n := by
  induction n with
  | zero =>
    rw [(Module.lower_layered hu).exactSize_composite (hat 0 hn)]
    have helementary : u.exactSize (.elementary .i64) = 8 := by
      rw [exactSize, exactSizeWithin.eq_def]
      rfl
    simp [levelDef, helementary]
  | succ n ih =>
    rw [(Module.lower_layered hu).exactSize_composite (hat (n + 1) hn)]
    simp only [levelDef, List.map_replicate, List.sum_replicate_nat, ih (by omega), Bool.false_eq_true, if_false]
    rw [Nat.pow_succ]
    omega

/-- The lowest level fits, and its size is found. -/
theorem level_sizes :
    ∃ u t, levels.lower {} = .ok u ∧ u.typedefAt? ⟨0⟩ = some t ∧
      u.exactSize (.composite ⟨0⟩) = 128 ∧ u.size? (.composite ⟨0⟩) = some (u.byteSize (.composite ⟨0⟩)) ∧
      (u.byteSize (.composite ⟨0⟩)).toNat = 128 := by
  obtain ⟨u, hu, hat⟩ := levels_lower
  have hexact := levels_exactSize hu hat 0 (by decide)
  obtain ⟨-, hsize, hiff⟩ := Module.lower_sizes hu (hat 0 (by decide))
  rw [hexact] at hsize hiff
  exact ⟨u, _, hu, hat 0 (by decide), hexact, hsize, hiff.2 (by decide)⟩

/-- The highest level is lowered like the others, and its size does not fit a word. -/
theorem levels_overflow :
    ∃ u t, levels.lower {} = .ok u ∧ u.typedefAt? ⟨15⟩ = some t ∧ 2 ^ 64 ≤ u.exactSize (.composite ⟨15⟩) ∧
      u.size? (.composite ⟨15⟩) = none := by
  obtain ⟨u, hu, hat⟩ := levels_lower
  have hexact := levels_exactSize hu hat 15 (by decide)
  have hlarge : 2 ^ 64 ≤ u.exactSize (.composite ⟨15⟩) := by
    rw [hexact]
    decide
  refine ⟨u, _, hu, hat 15 (by decide), hlarge, ?_⟩
  exact (u.holds_sizeWithin u.typedefs.size (.composite ⟨15⟩)).checked.trans (if_neg (Nat.not_lt.2 hlarge))

end Sample

end BlockForm
