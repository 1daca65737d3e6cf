import BlockForm.Proofs.Dispatch
import BlockForm.Proofs.Listing

/-!
# BlockForm.Proofs.Construction — how a value is put together in memory

What lowering adds to build a value at a fresh address, instruction by instruction (`Lowering.Fills`).  A copy, or an
elementary value, is written whole.  The members of a composite are built one after another: the code of the argument,
the address of the member, and one write there.  For a sum, the discriminant is set to the position of the first member
that the arguments build, and the same is done for that member in the payload.  Nothing else mentions the address.
-/

namespace BlockForm

open Action

namespace Lowering

/-- How one member of a composite is built. -/
structure MemberStore where
  /-- The code of the argument. -/
  argument : List Instruction
  /-- The value of the argument. -/
  value : ValueId
  /-- The address of the member. -/
  slot : ValueId
  /-- The code that makes the value one of the type of the member. -/
  conversion : List Instruction
  /-- What is written at the address. -/
  content : ValueId

/-- The code for a member of the object at an address. -/
def MemberStore.code (p : MemberStore) (m : ValueId) (index : Nat) : List Instruction :=
  p.argument ++ ⟨.objMemberAt m index, p.slot⟩ :: (p.conversion ++ [⟨.write p.slot p.content, Function.nilValue⟩])

/-- The code for members one after another, from a position on. -/
def memberCode (m : ValueId) (index : Nat) (parts : List MemberStore) : List Instruction :=
  (parts.zipIdx index).flatMap fun p => p.1.code m p.2

/-- The value of an argument is stored in a member of the object at `m`, which is all that is done with the object and
with the address of the member. -/
structure StoresMember (s s' : LoweringState) (m : ValueId) (index : Nat) (arg : Expr) (p : MemberStore) : Prop where
  lowered : ∃ t, Gives (lowerExpr arg) s p.value t ∧ s.Adds t p.argument
  adds : s.Adds s' (p.code m index)
  object : (p.code m index).filter (·.mentions m) = [⟨.objMemberAt m index, p.slot⟩]
  address : (p.code m index).filter (·.mentions p.slot) = [⟨.write p.slot p.content, Function.nilValue⟩]
  stored : ∃ ty, s'.function.valueType? p.slot = some ty.pointerTo ∧
    s'.function.StoredAs ty p.value p.conversion p.content

/-- From `s` to `s'`, arguments are stored in the members of the object at `m`, from a position on. -/
structure StoresMembers (s s' : LoweringState) (m : ValueId) (index : Nat) (args : List Expr)
    (parts : List MemberStore) : Prop where
  adds : s.Adds s' (memberCode m index parts)
  length : parts.length = args.length
  /-- The object is mentioned once for each member, in order. -/
  object : (memberCode m index parts).filter (·.mentions m) =
    (parts.zipIdx index).map fun p => ⟨.objMemberAt m p.2, p.1.slot⟩
  /-- The code of an argument is what lowering it adds after the members before it. -/
  lowered : ∀ {j arg p}, args[j]? = some arg → parts[j]? = some p → ∃ t t',
    s.Adds t (memberCode m index (parts.take j)) ∧ Gives (lowerExpr arg) t p.value t' ∧ t.Adds t' p.argument
  /-- The address of a member is mentioned once, to write the value of the argument there. -/
  address : ∀ p ∈ parts,
    (memberCode m index parts).filter (·.mentions p.slot) = [⟨.write p.slot p.content, Function.nilValue⟩]
  stored : ∀ p ∈ parts, ∃ ty, s'.function.valueType? p.slot = some ty.pointerTo ∧
    s'.function.StoredAs ty p.value p.conversion p.content

theorem memberCode_cons (m : ValueId) (index : Nat) (p : MemberStore) (parts : List MemberStore) :
    memberCode m index (p :: parts) = p.code m index ++ memberCode m (index + 1) parts := by
  simp [memberCode, List.zipIdx_cons]

theorem StoresMembers.nil (s : LoweringState) (m : ValueId) (index : Nat) : StoresMembers s s m index [] [] where
  adds := by simp [memberCode, LoweringState.Adds]
  length := rfl
  object := rfl
  lowered := by simp
  address := by simp
  stored := by simp

theorem gives_memberIndex {index i : Nat} {s s' : LoweringState} :
    Gives (memberIndex index) s i s' ↔ index < Handle.limit ∧ index = i ∧ s = s' := by
  unfold memberIndex
  by_cases h : index < Handle.limit
  · simp [h]
  · simp [h]

/-- One more member in front, whose code and whose address the others do not share. -/
theorem StoresMember.cons {s t s' : LoweringState} {m : ValueId} {index : Nat} {arg : Expr} {args : List Expr}
    {p : MemberStore} {parts : List MemberStore} (h : StoresMember s t m index arg p)
    (hrest : StoresMembers t s' m (index + 1) args parts) (hgrows : t.function.Grows s'.function)
    (hafter : (memberCode m (index + 1) parts).filter (·.mentions p.slot) = [])
    (hbefore : ∀ q ∈ parts, (p.code m index).filter (·.mentions q.slot) = []) :
    StoresMembers s s' m index (arg :: args) (p :: parts) where
  adds := by
    rw [memberCode_cons]
    exact h.adds.trans hrest.adds
  length := by simp [hrest.length]
  object := by simp [memberCode_cons, List.zipIdx_cons, h.object, hrest.object]
  lowered := by
    intro j arg' q harg hq
    cases j with
    | zero =>
      cases harg
      cases hq
      obtain ⟨t', hlower, hadds⟩ := h.lowered
      exact ⟨s, t', by simp [memberCode, LoweringState.Adds], hlower, hadds⟩
    | succ j =>
      obtain ⟨r, r', hr, hlower, hadds⟩ := hrest.lowered harg hq
      refine ⟨r, r', ?_, hlower, hadds⟩
      rw [List.take_succ_cons, memberCode_cons]
      exact h.adds.trans hr
  address := by
    rw [List.forall_mem_cons]
    refine ⟨by simp [memberCode_cons, h.address, hafter], fun q hq => ?_⟩
    simp [memberCode_cons, hbefore q hq, hrest.address q hq]
  stored := by
    obtain ⟨ty, hty, hstored⟩ := h.stored
    exact List.forall_mem_cons.2 ⟨⟨ty, hgrows.valueType? hty, hstored.grow hgrows⟩, hrest.stored⟩

end Lowering

namespace Site

variable {g g' : Site} {m v : ValueId} {s' : LoweringState}

/-! ## Members -/

/-- What has a type is not the absent value. -/
theorem Sound.ne_nilValue (hs : g.Sound) {ty : LoweredType} (h : g.state.function.valueType? v = some ty) :
    v ≠ Function.nilValue := by
  rintro rfl
  rw [Function.valueType?, hs.coherent.absent] at h
  cases h

/-- An instruction whose result has a type makes a fresh value. -/
theorem Ready.fresh_result (hr : g.Ready) {op : Operation} (huse : ∀ v ∈ op.operands, g.Usable v)
    (hknow : ∀ t n, op = .alloca t n → g.state.unit.Knows t)
    (hty : ∀ t, g.state.function.Types g.state.unit op t → t ≠ none)
    (h : Gives (Lowering.emit op) g.state v s') :
    ∃ g', g'.state = s' ∧ Onward g g' ∧ g'.Fresh v ∧ v = g.state.function.nextValue := by
  obtain ⟨g', rfl, ho, hu⟩ := emit_yields_known hr.sound huse hknow v s' h
  obtain ⟨t, htypes, -, htyped⟩ := Machine.emit_types h
  obtain ⟨ty, rfl⟩ := Option.ne_none_iff_exists'.1 (hty t htypes)
  have hnil := (ho.ready hr).sound.ne_nilValue (htyped ty rfl)
  exact ⟨g', rfl, ho, hr.fresh_of_emit ho hu h hnil⟩

/-- The address of a part of the object at a fresh address is a fresh one, and another. -/
theorem Fresh.part (hf : g.Fresh m) {op : Operation} (hop : op.operands = [m]) (hnew : ∀ t n, op ≠ .alloca t n)
    {slot : ValueId} (h : Gives (Lowering.emit op) g.state slot s')
    (hty : ∀ t, g.state.function.Types g.state.unit op t → t ≠ none) :
    ∃ g', g'.state = s' ∧ Onward g g' ∧ g'.Fresh m ∧ g'.Fresh slot ∧ slot ≠ m ∧
      g.state.function.values.size ≤ slot.index ∧ g.state.Adds g'.state [⟨op, slot⟩] := by
  obtain ⟨g', rfl, ho, hslot, hnext⟩ := hf.ready.fresh_result (by simpa [hop] using hf.usable)
    (fun t n hop => absurd hop (hnew t n)) hty h
  obtain ⟨hne, hf'⟩ := hf.emit ho h
  refine ⟨g', rfl, ho, hf', hslot, hne, ?_, ho.adds_emit hf.ready.sound h⟩
  rw [hnext]
  exact Nat.le_refl _

/-- **One member**: the argument is lowered, the address of the member is taken, and the value is stored there. -/
theorem Fresh.storesMember (hf : g.Fresh m) {arg : Expr} {index : Nat} {s₁ : LoweringState} {a : Unit}
    (hlower : Gives (Lowering.lowerExpr arg) g.state v s₁)
    (hstore : Gives (Lowering.storeArgument ⟨m, .memberwise⟩ index v) s₁ a s') :
    ∃ (g' : Site) (p : Lowering.MemberStore), g'.state = s' ∧ Onward g g' ∧ g'.Fresh m ∧ g'.Fresh p.slot ∧
      p.slot ≠ m ∧ g.state.function.values.size ≤ p.slot.index ∧
      Lowering.StoresMember g.state g'.state m index arg p := by
  obtain ⟨g₁, rfl, ho₁, hv⟩ := lowerExpr_yields arg hf.ready v s₁ hlower
  obtain ⟨argument, hargument⟩ := ho₁.exists_adds hf.ready.sound
  obtain ⟨hvm, hf₁, hno₁⟩ := hf.keeps (.lowerExpr arg) hlower ho₁ hargument
  simp only [Lowering.storeArgument, gives_bind (x := Lowering.memberIndex _), Lowering.gives_memberIndex,
    gives_bind (x := Lowering.emit _)] at hstore
  obtain ⟨_, _, ⟨-, rfl, rfl⟩, slot, s₂, hmember, hstore⟩ := hstore
  obtain ⟨g₂, rfl, ho₂, hf₂, hslot, hne, hle, hadds₂⟩ := hf₁.part rfl (by simp) hmember (by rintro _ ⟨⟩; simp)
  have hvs : v ≠ slot := by
    rintro rfl
    exact absurd hv.lt (Nat.not_lt_of_le hle)
  obtain ⟨g₃, ty, conversion, content, rfl, ho₃, hslot₃, hadds₃, hno₃, hcs, hty, hstored⟩ :=
    hslot.store (ho₂.usable hv) hvs hstore
  obtain ⟨-, hf₃, hrest⟩ := hf₂.keeps (.store (by exact hne) (by exact hvm)) hstore ho₃ hadds₃
  -- the code of the argument is made before the address of the member
  have hbefore := mentions_of_le hf.ready.sound hf₁.ready.sound hargument hle
  refine ⟨g₃, ⟨argument, v, slot, conversion, content⟩, rfl, (ho₁.trans ho₂).trans ho₃, hf₃, hslot₃, hne,
    ho₁.trace.function_grows.values_size_le.trans hle, ⟨_, hlower, hargument⟩, ?_, ?_, ?_, ty, hty, hstored⟩
  · exact hargument.trans (hadds₂.trans hadds₃)
  · simp [Lowering.MemberStore.code, hno₁, hrest]
  · simp [Lowering.MemberStore.code, hbefore, hno₃, hne]

/-- **The members, one after another.**  Each step leaves the object, and the addresses of the members before it,
fresh. -/
theorem Fresh.storesMembers (args : List Expr) : ∀ {g : Site} {index : Nat} {a : Unit}, g.Fresh m →
    Gives (Lowering.storeAll ⟨m, .memberwise⟩ index args) g.state a s' →
    ∃ (g' : Site) (parts : List Lowering.MemberStore), g'.state = s' ∧ Onward g g' ∧ g'.Fresh m ∧
      (∀ p ∈ parts, g.state.function.values.size ≤ p.slot.index) ∧
      Lowering.StoresMembers g.state g'.state m index args parts := by
  induction args with
  | nil =>
    intro g index a hf h
    rw [Lowering.storeAll] at h
    obtain ⟨-, rfl⟩ := gives_pure.1 h
    exact ⟨g, [], rfl, .refl hf.ready.isOpen, hf, by simp, .nil _ m index⟩
  | cons arg args ih =>
    intro g index a hf h
    rw [Lowering.storeAll] at h
    simp only [gives_bind] at h
    obtain ⟨v, s₁, hlower, _, s₂, hstore, hrest⟩ := h
    obtain ⟨g₁, p, rfl, ho₁, hf₁, hslot, hne, hle, hmember⟩ := hf.storesMember hlower hstore
    obtain ⟨g', parts, rfl, ho', hf', hlater, hmembers⟩ := ih hf₁ hrest
    have hsize := ho₁.trace.function_grows.values_size_le
    refine ⟨g', p :: parts, rfl, ho₁.trans ho', hf', ?_, hmember.cons hmembers ho'.trace.function_grows ?_ ?_⟩
    · refine List.forall_mem_cons.2 ⟨hle, fun q hq => hsize.trans (hlater q hq)⟩
    · exact (hslot.keeps (.storeAll args (by exact hne.symm) _) hrest ho' hmembers.adds).2.2
    · exact fun q hq => mentions_of_le hf.ready.sound hf₁.ready.sound hmember.adds (hlater q hq)

end Site

/-! ## Plans -/

namespace FillPlan

/-- The first member that arguments of the given types build. -/
structure FirstBuilt (args members : List Ty) (k : Nat) (member : Ty) : Prop where
  found : members[k]? = some member
  built : builds args member = true
  least : ∀ {j other}, j < k → members[j]? = some other → builds args other = false

theorem FirstBuilt.of_findIdx? {args members : List Ty} {k : Nat} {member : Ty}
    (h : members.findIdx? (builds args) = some k) (hmember : members[k]? = some member) :
    FirstBuilt args members k member := by
  obtain ⟨hk, hbuilt, hleast⟩ := List.findIdx?_eq_some_iff_getElem.1 h
  have heq : members[k] = member := Option.some.inj ((List.getElem?_eq_getElem hk).symm.trans hmember)
  refine ⟨hmember, heq ▸ hbuilt, fun {j other} hj hother => ?_⟩
  obtain ⟨hlt, rfl⟩ := List.getElem?_eq_some_iff.1 hother
  simpa using hleast j hj

theorem FirstBuilt.unique {args members : List Ty} {k k' : Nat} {member member' : Ty}
    (h : FirstBuilt args members k member) (h' : FirstBuilt args members k' member') : k = k' ∧ member = member' := by
  rcases Nat.lt_trichotomy k k' with hlt | rfl | hlt
  · exact absurd h.built (by simp [h'.least hlt h.found])
  · exact ⟨rfl, Option.some.inj (h.found.symm.trans h'.found)⟩
  · exact absurd h'.built (by simp [h.least hlt h'.found])

theorem length_of_isCopy {args : List Ty} {ty : Ty} (h : isCopy args ty = true) : args.length = 1 := by
  unfold isCopy at h
  split at h
  · rfl
  · cases h

/-- What a plan can be, and for which types and arguments. -/
inductive Choice (args : List Ty) (ty : Ty) : FillPlan → Prop where
  | copy (hcopy : isCopy args ty = true) : Choice args ty ⟨[], .whole⟩
  | union {k : Nat} {member : Ty} (hcopy : isCopy args ty = false) (hsum : ty.isSum = true)
      (hfirst : FirstBuilt args ty.members k member) : Choice args ty (enter k (of args member))
  | members (hcopy : isCopy args ty = false) (hty : ty.isSum = false ∧ ty.isComposite = true)
      (hlen : ty.members.length = args.length) : Choice args ty ⟨[], .memberwise⟩
  | single (hty : ty.isSum = false ∧ ty.isComposite = false) (hone : args.length = 1) : Choice args ty ⟨[], .whole⟩
  | impossible (fault : Fault) : Choice args ty ⟨[], .impossible fault⟩

theorem of_choice (args : List Ty) (ty : Ty) : Choice args ty (of args ty) := by
  rw [of]
  by_cases hcopy : isCopy args ty = true
  · rw [if_pos hcopy]
    exact .copy hcopy
  rw [if_neg hcopy]
  have hcopy : isCopy args ty = false := by simpa using hcopy
  by_cases hsum : ty.isSum = true
  · rw [if_pos hsum]
    split
    · next k h =>
      have hk := (List.findIdx?_eq_some_iff_findIdx_eq.1 h).1
      exact .union hcopy hsum (.of_findIdx? h (List.getElem?_eq_getElem hk))
    · exact .impossible _
  rw [if_neg hsum]
  have hsum : ty.isSum = false := by simpa using hsum
  by_cases hcomposite : ty.isComposite = true
  · rw [if_pos hcomposite]
    by_cases hlen : ty.members.length = args.length
    · rw [if_pos hlen]
      exact .members hcopy ⟨hsum, hcomposite⟩ hlen
    · rw [if_neg hlen]
      exact .impossible _
  rw [if_neg hcomposite]
  by_cases hone : args.length = 1
  · rw [if_pos hone]
    exact .single ⟨hsum, by simpa using hcomposite⟩ hone
  · rw [if_neg hone]
    exact .impossible _

end FillPlan

/-- The value is the number `k`, as a constant of 64 bits. -/
structure Function.Counts (f : Function) (v : ValueId) (k : Nat) : Prop where
  type : f.valueType? v = some (.elementary .i64)
  value : ∃ n : Int64, f.constant? v = some (.int n) ∧ n.toInt = k

theorem Function.Counts.grow {f g : Function} {v : ValueId} {k : Nat} (h : f.Counts v k) (hg : f.Grows g) :
    g.Counts v k := by
  obtain ⟨n, hn, hk⟩ := h.value
  exact ⟨hg.valueType? h.type, n, hg.constant?_eq_some hn, hk⟩

namespace Lowering

/-- Member `k` of the union at `m` is made present by a discriminant that counts `k`, and `payload` is its address. -/
structure EntersMember (s s' : LoweringState) (m : ValueId) (k : Nat) (discriminant payload : ValueId) : Prop where
  adds : s.Adds s' [⟨.setUnionIdx m discriminant, Function.nilValue⟩, ⟨.unionMemberAt m k, payload⟩]
  counts : s'.function.Counts discriminant k

/-- From `s` to `s'`, the value of one argument is stored at `m`, and nothing else is done with the address. -/
structure StoresWhole (s s' : LoweringState) (m : ValueId) (arg : Expr) (code : List Instruction) : Prop where
  adds : s.Adds s' code
  stored : ∃ argument v t ty conversion content, Gives (lowerExpr arg) s v t ∧ s.Adds t argument ∧
    code = argument ++ (conversion ++ [⟨.write m content, Function.nilValue⟩]) ∧
    code.filter (·.mentions m) = [⟨.write m content, Function.nilValue⟩] ∧
    s'.function.valueType? m = some ty.pointerTo ∧ s'.function.StoredAs ty v conversion content

/-- From `s` to `s'`, `code` builds a value of type `ty` at the address `m`. -/
inductive Fills (args : List Expr) : (s : LoweringState) → (m : ValueId) → (ty : Ty) → (code : List Instruction) →
    (s' : LoweringState) → Prop where
  | whole {s s' m ty arg code} (hargs : args = [arg])
      (hty : FillPlan.isCopy (args.map Expr.ty) ty = true ∨ (ty.isSum = false ∧ ty.isComposite = false))
      (h : StoresWhole s s' m arg code) : Fills args s m ty code s'
  | members {s s' m ty parts} (hcopy : FillPlan.isCopy (args.map Expr.ty) ty = false)
      (hty : ty.isSum = false ∧ ty.isComposite = true) (hlen : ty.members.length = args.length)
      (h : StoresMembers s s' m 0 args parts) : Fills args s m ty (memberCode m 0 parts) s'
  | union {s s₁ s' m ty k member discriminant payload rest}
      (hcopy : FillPlan.isCopy (args.map Expr.ty) ty = false) (hty : ty.isSum = true)
      (hfirst : FillPlan.FirstBuilt (args.map Expr.ty) ty.members k member)
      (henter : EntersMember s s₁ m k discriminant payload) (hrest : Fills args s₁ payload member rest s')
      (hmentions : rest.filter (·.mentions m) = []) :
      Fills args s m ty
        (⟨.setUnionIdx m discriminant, Function.nilValue⟩ :: ⟨.unionMemberAt m k, payload⟩ :: rest) s'

theorem Fills.adds {args : List Expr} {s s' : LoweringState} {m : ValueId} {ty : Ty} {code : List Instruction}
    (h : Fills args s m ty code s') : s.Adds s' code := by
  induction h with
  | whole _ _ h => exact h.adds
  | members _ _ _ h => exact h.adds
  | union _ _ _ henter _ _ ih => exact henter.adds.trans ih

/-- How a sum is built, unless it is copied. -/
theorem Fills.of_isSum {args : List Expr} {s s' : LoweringState} {m : ValueId} {ty : Ty} {code : List Instruction}
    (h : Fills args s m ty code s') (hcopy : FillPlan.isCopy (args.map Expr.ty) ty = false) (hsum : ty.isSum = true) :
    ∃ k member discriminant payload s₁ rest, FillPlan.FirstBuilt (args.map Expr.ty) ty.members k member ∧
      EntersMember s s₁ m k discriminant payload ∧ Fills args s₁ payload member rest s' ∧
      code = ⟨.setUnionIdx m discriminant, Function.nilValue⟩ :: ⟨.unionMemberAt m k, payload⟩ :: rest ∧
      rest.filter (·.mentions m) = [] := by
  cases h with
  | whole _ hty _ => simp [hcopy, hsum] at hty
  | members _ hty _ _ => simp [hsum] at hty
  | union _ _ hfirst henter hrest hmentions => exact ⟨_, _, _, _, _, _, hfirst, henter, hrest, rfl, hmentions⟩

/-! ## Runs -/

theorem setUnionIdx_gives {m d r : ValueId} {s s' : LoweringState} (h : Gives (emit (.setUnionIdx m d)) s r s') :
    r = Function.nilValue := by
  obtain ⟨x, ty, -, -, hty, rfl, -⟩ := emit_gives h
  cases hty
  rfl

/-- A member is entered by two instructions, after a constant that counts its position. -/
theorem enterMember_gives {m payload : ValueId} {k : Nat} {s s' : LoweringState}
    (h : Gives (enterMember m k) s payload s') :
    ∃ d s₁ s₂, Gives (constant (.int (Int64.ofNat k)) .i64) s d s₁ ∧ s₁.function.Counts d k ∧
      Gives (emit (.setUnionIdx m d)) s₁ Function.nilValue s₂ ∧ Gives (emit (.unionMemberAt m k)) s₂ payload s' := by
  simp only [enterMember, gives_bind, gives_memberIndex] at h
  obtain ⟨d, s₁, hconst, r, s₂, hset, _, _, ⟨hk, rfl, rfl⟩, hpayload⟩ := h
  obtain rfl := setUnionIdx_gives hset
  obtain ⟨hvalue, htype, -⟩ := constant_made hconst
  have hcount : (Int64.ofNat k).toInt = k := Int64.toInt_ofNat_of_lt (hk.trans (by decide))
  exact ⟨d, s₁, s₂, hconst, ⟨htype, _, hvalue, hcount⟩, hset, hpayload⟩

theorem Made.fill {own : ValueId → Prop} {m : ValueId} (h : own m) (ty : Ty) (args : List Expr) :
    Made own (fill m ty args) fun _ => True :=
  (prepare h _).bind fun _ hsite => storeAll args hsite 0

/-- A plan that enters a member is followed in the payload. -/
theorem prepare_enter (m : ValueId) (k : Nat) (plan : FillPlan) :
    prepare m (plan.enter k) = enterMember m k >>= fun payload => prepare payload plan := by
  simp [prepare, FillPlan.enter, enterPath]

/-- What building can come to: one argument is stored, the first member that the arguments build is entered and built,
or the arguments are stored in the members. -/
theorem fill_gives {m : ValueId} {ty : Ty} {args : List Expr} {s s' : LoweringState} {a : Unit}
    (h : Gives (fill m ty args) s a s') :
    (∃ arg, args = [arg] ∧
      (FillPlan.isCopy (args.map Expr.ty) ty = true ∨ (ty.isSum = false ∧ ty.isComposite = false)) ∧
      Gives (storeAll ⟨m, .whole⟩ 0 args) s a s') ∨
    (FillPlan.isCopy (args.map Expr.ty) ty = false ∧ ty.isSum = true ∧ ∃ k member payload s₁,
      FillPlan.FirstBuilt (args.map Expr.ty) ty.members k member ∧ Gives (enterMember m k) s payload s₁ ∧
      Gives (fill payload member args) s₁ a s') ∨
    (FillPlan.isCopy (args.map Expr.ty) ty = false ∧ (ty.isSum = false ∧ ty.isComposite = true) ∧
      ty.members.length = args.length ∧ Gives (storeAll ⟨m, .memberwise⟩ 0 args) s a s') := by
  unfold fill at h
  have hchoice := FillPlan.of_choice (args.map Expr.ty) ty
  generalize FillPlan.of (args.map Expr.ty) ty = plan at h hchoice
  have here : ∀ {goal}, prepare m ⟨[], goal⟩ = pure ⟨m, goal⟩ → plan = ⟨[], goal⟩ →
      Gives (storeAll ⟨m, goal⟩ 0 args) s a s' := by
    rintro goal hgoal rfl
    rwa [hgoal, pure_bind] at h
  cases hchoice with
  | copy hcopy =>
    obtain ⟨arg, harg⟩ := List.length_eq_one_iff.1 (by simpa using FillPlan.length_of_isCopy hcopy)
    exact Or.inl ⟨arg, harg, Or.inl hcopy, here rfl rfl⟩
  | single hty hone =>
    obtain ⟨arg, harg⟩ := List.length_eq_one_iff.1 (by simpa using hone)
    exact Or.inl ⟨arg, harg, Or.inr hty, here rfl rfl⟩
  | union hcopy hsum hfirst =>
    rw [prepare_enter, bind_assoc, gives_bind] at h
    obtain ⟨payload, s₁, henter, h⟩ := h
    exact Or.inr (Or.inl ⟨hcopy, hsum, _, _, payload, s₁, hfirst, henter, h⟩)
  | members hcopy hty hlen => exact Or.inr (Or.inr ⟨hcopy, hty, by simpa using hlen, here rfl rfl⟩)
  | impossible fault =>
    rw [gives_bind] at h
    obtain ⟨_, _, hfault, -⟩ := h
    exact absurd hfault not_gives_fault

end Lowering

namespace Site

variable {g : Site} {m : ValueId} {s' : LoweringState}

/-- The address of the payload is fresh, and another. -/
theorem Fresh.entersMember (hf : g.Fresh m) {k : Nat} {payload : ValueId}
    (h : Gives (Lowering.enterMember m k) g.state payload s') :
    ∃ g' d, g'.state = s' ∧ Onward g g' ∧ g'.Fresh m ∧ g'.Fresh payload ∧ payload ≠ m ∧
      Lowering.EntersMember g.state g'.state m k d payload := by
  obtain ⟨d, s₁, s₂, hconst, hcounts, hset, hpayload⟩ := Lowering.enterMember_gives h
  obtain ⟨g₁, rfl, ho₁, hd⟩ := constant_yields hf.ready (fits_i64 _) d s₁ hconst
  have hadds₁ := ho₁.adds_nil hf.ready.sound (Lowering.constant_made hconst).2.2
  obtain ⟨-, hf₁, -⟩ := hf.keeps (.constant (fits_i64 _)) hconst ho₁ hadds₁
  obtain ⟨g₂, rfl, ho₂, -⟩ := emit_yields hf₁.ready.sound (by simpa [Operation.operands] using ⟨hf₁.usable, hd⟩)
    (by simp) _ s₂ hset
  have hadds₂ := ho₂.adds_emit hf₁.ready.sound hset
  obtain ⟨g₃, rfl, ho₃, hf₃, hfresh, hne, -, hadds₃⟩ :=
    (hf₁.emit ho₂ hset).2.part rfl (by simp) hpayload (by rintro _ ⟨⟩; simp)
  exact ⟨g₃, d, rfl, (ho₁.trans ho₂).trans ho₃, hf₃, hfresh, hne, hadds₁.trans (hadds₂.trans hadds₃),
    hcounts.grow (ho₂.trace.function_grows.trans ho₃.trace.function_grows)⟩

theorem Fresh.storesWhole (hf : g.Fresh m) {arg : Expr} {a : Unit}
    (h : Gives (Lowering.storeAll ⟨m, .whole⟩ 0 [arg]) g.state a s') :
    ∃ g' code, g'.state = s' ∧ Onward g g' ∧ g'.Fresh m ∧ Lowering.StoresWhole g.state g'.state m arg code := by
  simp only [Lowering.storeAll, Lowering.storeArgument, gives_bind, gives_pure] at h
  obtain ⟨v, s₁, hlower, _, _, hstore, -, rfl⟩ := h
  obtain ⟨g₁, rfl, ho₁, hv⟩ := lowerExpr_yields arg hf.ready v s₁ hlower
  obtain ⟨argument, hargument⟩ := ho₁.exists_adds hf.ready.sound
  obtain ⟨hvm, hf₁, hno₁⟩ := hf.keeps (.lowerExpr arg) hlower ho₁ hargument
  obtain ⟨g₂, ty, conversion, content, rfl, ho₂, hf₂, hadds₂, hno₂, hc, hty, hstored⟩ := hf₁.store hv hvm hstore
  refine ⟨g₂, _, rfl, ho₁.trans ho₂, hf₂, hargument.trans hadds₂, argument, v, _, ty, conversion, content, hlower,
    hargument, rfl, ?_, hty, hstored⟩
  simp [hno₁, hno₂]

/-- **Building at a fresh address**, by induction on the type through its members. -/
theorem Fresh.fills (args : List Expr) (ty : Ty) : ∀ {g : Site} {m : ValueId} {a : Unit}, g.Fresh m →
    Gives (Lowering.fill m ty args) g.state a s' →
    ∃ g' code, g'.state = s' ∧ Onward g g' ∧ g'.Fresh m ∧ Lowering.Fills args g.state m ty code g'.state := by
  induction ty using CompilationUnit.members_induction with
  | step ty ih =>
    intro g m a hf h
    rcases Lowering.fill_gives h with ⟨arg, rfl, hty, h⟩ | ⟨hcopy, hsum, k, member, payload, s₁, hfirst, henter, h⟩ |
      ⟨hcopy, hty, hlen, h⟩
    · obtain ⟨g', code, hg', ho, hf', hstored⟩ := hf.storesWhole h
      exact ⟨g', code, hg', ho, hf', .whole rfl hty hstored⟩
    · obtain ⟨g₁, d, rfl, ho₁, hf₁, hpayload, hne, henters⟩ := hf.entersMember henter
      obtain ⟨g', rest, rfl, ho', -, hfills⟩ := ih member (List.mem_of_getElem? hfirst.found) hpayload h
      -- the payload is built without the address of the union
      obtain ⟨-, hf', hno⟩ := hf₁.keeps (.fill (by exact hne) member args) h ho' hfills.adds
      exact ⟨g', _, rfl, ho₁.trans ho', hf', .union hcopy hsum hfirst henters hfills hno⟩
    · obtain ⟨g', parts, hg', ho, hf', -, hmembers⟩ := hf.storesMembers args h
      exact ⟨g', _, hg', ho, hf', .members hcopy hty hlen hmembers⟩

/-- An instruction that gives an address to build at: a slot of a known type, or the payload of a union. -/
inductive Obtains (g : Site) : Operation → Prop where
  | slot {ty : LoweredType} {count : Nat} (h : g.state.unit.Knows ty) : Obtains g (.alloca ty count)
  | payload {object : ValueId} {index : Nat} (h : g.Usable object) : Obtains g (.unionMemberAt object index)

theorem Obtains.fresh {op : Operation} (h : g.Obtains op) (hr : g.Ready) (hm : Gives (Lowering.emit op) g.state m s') :
    ∃ g' : Site, g'.state = s' ∧ Onward g g' ∧ g'.Fresh m ∧ m = g.state.function.nextValue := by
  cases h with
  | slot hty =>
    refine hr.fresh_result (by simp [Operation.operands]) ?_ (by rintro _ ⟨⟩; simp) hm
    rintro _ _ ⟨⟩
    exact hty
  | payload hobject =>
    exact hr.fresh_result (by simpa [Operation.operands] using hobject) (by simp) (by rintro _ ⟨⟩; simp) hm

/-- What is added at an address that has just been obtained. -/
theorem Obtains.fills {op : Operation} (h : g.Obtains op) (hr : g.Ready) {s : LoweringState}
    (hm : Gives (Lowering.emit op) g.state m s) {ty : Ty} {args : List Expr} {a : Unit}
    (hfill : Gives (Lowering.fill m ty args) s a s') : ∃ code, Lowering.Fills args s m ty code s' := by
  obtain ⟨g₁, rfl, -, hf, -⟩ := h.fresh hr hm
  obtain ⟨g', code, rfl, -, -, hfills⟩ := hf.fills args ty hfill
  exact ⟨code, hfills⟩

end Site

namespace Sample

/-- `point(1, 2), 3` -/
def location : List Expr :=
  [.ofConstruct point [.constant (.int 1) (.elementary .i32) default, .constant (.int 2) (.elementary .i32) default]
    default, .constant (.int 3) (.elementary .i32) default]

/-- Builds a value in a slot of its own. -/
def construct (ty : Ty) (args : List Expr) : Lowering Unit := do
  let lowered ← Lowering.lowerType ty
  let slot ← Lowering.alloca lowered
  Lowering.fill slot ty args

theorem beforeStatements_ready : ∃ g : Site, g.state = beforeStatements ∧ g.Ready := by
  have hf : (Function.definition "f" [] (.elementary .nil)).state.Fresh [] := (Function.fresh_definition rfl).1
  have hprepared : Gives Lowering.prepareReturn beforeStatements () beforeStatements := ⟨rfl, rfl⟩
  obtain ⟨g, hg, hstarted, -⟩ := Site.prepareReturn_started hf (CompilationUnit.finished_empty _ _).closed nofun
    (CompilationUnit.knows_elementary _ _) hprepared
  exact ⟨g, hg, hstarted.ready⟩

theorem construct_gives {ty : Ty} {args : List Expr}
    (h : (construct ty args beforeStatements).result.toOption = some ()) :
    ∃ (g : Site) (op : Operation) (m : ValueId) (s s' : LoweringState), g.Ready ∧ g.Obtains op ∧
      Gives (Lowering.emit op) g.state m s ∧ Gives (Lowering.fill m ty args) s () s' := by
  have hgives : Gives (construct ty args) beforeStatements () (construct ty args beforeStatements).state :=
    ⟨eq_ok_of_toOption h, rfl⟩
  obtain ⟨g, hg, hr⟩ := beforeStatements_ready
  simp only [construct, gives_bind, ← hg] at hgives
  obtain ⟨lowered, _, hlower, m, s, hslot, hfill⟩ := hgives
  obtain ⟨g₁, rfl, ho, hknows, -⟩ := Site.lowerType_yields hr ty lowered _ hlower
  exact ⟨g₁, _, m, s, _, ho.ready hr, .slot hknows, hslot, hfill⟩

end Sample

end BlockForm
