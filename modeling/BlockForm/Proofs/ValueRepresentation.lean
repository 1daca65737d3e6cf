import BlockForm.Proofs.Acyclicity
import BlockForm.Proofs.Calls

/-!
# BlockForm.Proofs.ValueRepresentation — every expression gives a representative of its value

`Module.Begins` says in which state lowering a module comes to the body of a function: all items have been declared, and
those before the function have been lowered or have failed.  The unit keeps to the conventions by then, since whatever
a pass does to it, and wherever it fails, is to lower types, to intern strings and to add functions that return values
(`CompilationUnit.Respects`).  So every call that is made from there on keeps to them as well
(`Module.lowerExpr_represents`).
-/

namespace BlockForm

open Action

namespace CompilationUnit

variable {u u' : CompilationUnit} {α β : Type}

/-! ## Units -/

/-- The step leaves a unit that keeps to the conventions as one that does, whether it succeeds or not. -/
def Respects (x : Interning α) : Prop := ∀ u, u.Conventional → (x u).state.Conventional

theorem Respects.gives {x : Interning α} {a : α} (hx : Respects x) (hu : u.Conventional) (h : Gives x u a u') :
    u'.Conventional := h.2 ▸ hx u hu

theorem Respects.bind {x : Interning α} {k : α → Interning β} (hx : Respects x)
    (hk : ∀ {u a u'}, Gives x u a u' → Respects (k a)) : Respects (x >>= k) := fun u hu =>
  state_bind (R := Conventional) (hx u hu) fun _ ha => hk ha _ (hx u hu)

theorem respects_pure (a : α) : Respects (pure a) := fun _ hu => hu

theorem respects_report (e : Event) : Respects (Action.report e) := fun _ hu => hu

theorem conventional_empty (name : String) (options : Options) : (empty name options).Conventional := ⟨nofun, nofun⟩

theorem respects_lowerType (ty : Ty) : Respects (lowerType ty) := fun u hu =>
  hu.congr (lowerType_appends ty u).1.functions (lowerType_appends ty u).2

theorem respects_internLiteral (content : String) : Respects (internLiteral content) := by
  intro u hu
  rcases state_of_restores (internLiteral_restores (u := u) content) with heq | ⟨id, hgives⟩
  · rwa [heq]
  · exact hu.internLiteral hgives

/-- A function that returns a value is entered, or takes the place of another. -/
theorem Conventional.insert (hu : u.Conventional) {f : Function} (hf : f.returnType.isPointer = false) :
    Conventional { u with functions := u.functions.insert f.name f } := by
  refine ⟨fun {name g} hg => ?_, hu.literals⟩
  rw [function?, Table.get?_insert] at hg
  split at hg
  · obtain rfl := Option.some.inj hg
    exact hf
  · exact hu.results hg

theorem respects_addFunction {f : Function} (hf : f.returnType.isPointer = false) : Respects (addFunction f) := by
  intro u hu
  unfold addFunction
  refine state_bind (R := Conventional) hu fun w hw => ?_
  obtain ⟨rfl, -⟩ := gives_get.1 hw
  show Conventional (Outcome.state _)
  cases u.functions.indexOf? f.name with
  | some i =>
    refine state_bind (R := Conventional) (hu.insert hf) fun _ _ => ?_
    rw [state_handle]
    exact hu.insert hf
  | none =>
    refine state_bind (R := Conventional) (by rwa [state_handle]) fun id _ => ?_
    rw [state_handle]
    -- the name is bound before the function is entered
    have hnamed : Conventional (bindName f.name (.function id) u).state := hu.congr rfl rfl
    exact state_bind (R := Conventional) hnamed fun _ _ => hnamed.insert hf

theorem respects_lowerParams (params : List Param) : Respects (lowerParams params) := by
  induction params with
  | nil => exact respects_pure _
  | cons param params ih => exact (respects_lowerType _).bind fun _ => ih.bind fun _ => respects_pure _

theorem respects_lowerSignature (s : Signature) : Respects (lowerSignature s) :=
  (respects_lowerParams _).bind fun _ => (respects_lowerType _).bind fun _ => respects_pure _

theorem isPointer_of_lowerSignature {s : Signature} {r : List LoweredType × LoweredType}
    (h : Gives (lowerSignature s) u r u') : r.2.isPointer = false := by
  simp only [lowerSignature, gives_bind, gives_pure] at h
  obtain ⟨_, _, -, result, _, hresult, rfl, -⟩ := h
  exact lowerType_isPointer hresult

theorem respects_declareFunction (s : Signature) : Respects (declareFunction s) :=
  (respects_lowerSignature s).bind fun hsig =>
    (respects_addFunction (isPointer_of_lowerSignature hsig)).bind fun _ => respects_pure _

theorem respects_defineFunction (item : FunctionItem) (arguments : List LoweredType) (result : LoweredType) :
    Respects (defineFunction item arguments result) := by
  intro u hu
  unfold defineFunction
  dsimp only
  split
  · exact hu
  · split
    · exact hu
    · have hmade : Lowering.Made (fun _ => True) (Lowering.lowerFunctionBody item) fun _ => True :=
        .lowerFunctionBody (fun _ => trivial) item
      exact (hmade.keepsUnit respects_lowerType respects_internLiteral _).1 hu

theorem returnType_of_defineFunction {item : FunctionItem} {arguments : List LoweredType} {result : LoweredType}
    {d : Function} (h : Gives (defineFunction item arguments result) u d u') : d.returnType = result := by
  obtain ⟨hd, entry, endBlock, f, s', ho, hl, rfl, -⟩ := defineFunction_gives h
  obtain ⟨hf, -, -, hresult⟩ := Function.fresh_definition hd
  obtain ⟨-, -, rfl⟩ := Function.openBody_gives hf ho
  have hmade : Lowering.Made (fun _ => True) (Lowering.lowerFunctionBody item) fun _ => True :=
    .lowerFunctionBody (fun _ => trivial) item
  exact (hmade.grows hl).returnType.trans hresult

theorem respects_lowerFunction (item : FunctionItem) : Respects (lowerFunction item) := by
  refine (respects_report _).bind fun _ => (respects_lowerSignature _).bind fun hsig => ?_
  refine (respects_defineFunction _ _ _).bind fun hdef => (respects_report _).bind fun _ => ?_
  have hreturn := isPointer_of_lowerSignature hsig
  rw [← returnType_of_defineFunction hdef] at hreturn
  exact (respects_addFunction hreturn).bind fun _ => respects_pure _

theorem respects_declareItem (item : Item) : Respects (declareItem item) := by
  cases item with
  | type t => exact (respects_lowerType _).bind fun _ => respects_pure _
  | function f => exact respects_declareFunction _
  | foreign s => exact respects_declareFunction _

theorem respects_lowerItem (item : Item) : Respects (lowerItem item) := by
  cases item with
  | function f => exact respects_lowerFunction f
  | type t | foreign s => exact respects_pure _

theorem respects_collectingAll {step : Item → Interning Unit} (h : ∀ item, Respects (step item)) (items : List Item) :
    Respects (collectingAll step items) := by
  induction items with
  | nil => exact respects_pure _
  | cons item items ih =>
    refine Respects.bind (fun u hu => ?_) fun _ => ih.bind fun _ => respects_pure _
    rw [collecting_state]
    exact h item u hu

end CompilationUnit

/-! ## Bodies -/

section

open CompilationUnit

/-- Nothing is in scope yet, and the function has no values but its arguments. -/
theorem LoweringState.conventional_opened {u : CompilationUnit} {f : Function} {tys : List LoweredType}
    (hu : u.Conventional) (hf : f.Fresh tys) : Conventional ⟨u, f.opened, ⟨0⟩, ⟨1⟩, [[]]⟩ := by
  have hliterals : f.opened.literals = [] := hf.literals
  refine ⟨⟨hu, Function.Fresh.value?_opened hf.absent, ?_⟩, ?_⟩
  · simp [hliterals]
  · simp [SlotsAreAddresses]

/-- The state in which lowering the module into a unit of the given name comes to the body of the function.  Every item
has been declared and the items before the function have been lowered, some of them with user errors perhaps; the
function has its arguments and its first two blocks. -/
inductive Module.Begins (m : Module) (name : String) (options : Options) (item : FunctionItem) :
    LoweringState → Prop where
  | intro {before after : List Item} {declaring lowering : List Error} {u u₁ u₂ : CompilationUnit}
      {arguments : List LoweredType} {result : LoweredType} {entry endBlock : BlockId} {f : Function}
      (items : m.items = before ++ .function item :: after)
      (declared : Gives (collectingAll declareItem m.items) (.empty name options) declaring u)
      (lowered : Gives (collectingAll lowerItem before) u lowering u₁)
      (signature : Gives (lowerSignature item.signature) u₁ (arguments, result) u₂)
      (definition : (Function.definition item.signature.name arguments result).result = .ok ())
      (opened : Gives Function.openBody (Function.definition item.signature.name arguments result).state
        (entry, endBlock) f) :
      Begins m name options item ⟨u₂, f, entry, endBlock, [[]]⟩

theorem Module.Begins.conventional {m : Module} {name : String} {options : Options} {item : FunctionItem}
    {s : LoweringState} (h : m.Begins name options item s) : s.Conventional := by
  cases h with
  | intro _ declared lowered signature definition opened =>
    have hu := (respects_collectingAll respects_declareItem _).gives (conventional_empty _ _) declared
    have hu₁ := (respects_collectingAll respects_lowerItem _).gives hu lowered
    have hu₂ := (respects_lowerSignature _).gives hu₁ signature
    have hfresh := (Function.fresh_definition definition).1
    obtain ⟨rfl, rfl, rfl⟩ := Function.openBody_gives hfresh opened
    exact LoweringState.conventional_opened hu₂ hfresh

end

/-- **Every expression gives a representative of its value.**  Take a function in which every construction is of a
composite type, as `Expr.ofConstruct` makes them of such types, in whatever module, and any call that is made while its
body is lowered, whether or not that succeeds in the end.  All names in scope stand for addresses when the call starts
and when it ends.  And where it is an expression that is lowered, the value that is given is of an elementary type and
no address, or it is the address of a composite; only for a call of a function that returns nothing and for a match of
type `nil` can it be the absent value. -/
theorem Module.lowerExpr_represents {m : Module} {name : String} {options : Options} {item : FunctionItem}
    {s t : LoweringState} {c : Lowering.Call} (hb : m.Begins name options item s)
    (hitem : item.body.constructsComposites = true) (hc : Lowering.Call.Reaches (.function item) s c t) :
    t.SlotsAreAddresses ∧ (∀ {t'}, c.Ends t t' → t'.SlotsAreAddresses) ∧
      ∀ {e v t'}, c = .expr e → Gives (Lowering.lowerExpr e) t v t' → t'.Represents e v := by
  obtain ⟨hcode, ht⟩ := hc.keeps hitem hb.conventional
  refine ⟨ht.slots, fun hends => (hends.conventional hcode ht).slots, ?_⟩
  rintro e v t' rfl h
  exact (Lowering.lowerExpr_yields e hcode ht v t' h).2

namespace Sample

/-- The unit when `reset` is about to be lowered. -/
def resetUnit : CompilationUnit :=
  (CompilationUnit.collectingAll CompilationUnit.declareItem resetting.items (.empty "sample" {})).state

/-- `reset` with its arguments. -/
def resetDefinition : Outcome Function Unit :=
  Function.definition "reset" [(LoweredType.composite ⟨0⟩).pointerTo, .elementary .i32] (.elementary .i32)

/-- The state in which its body is about to be lowered. -/
def resetStart : LoweringState :=
  ⟨(CompilationUnit.lowerSignature reset.signature resetUnit).state, (Function.openBody resetDefinition.state).state,
    ⟨0⟩, ⟨1⟩, [[]]⟩

/-- The state in which its statements are, in a scope of their own. -/
def resetSpilled : LoweringState :=
  let s := (Lowering.spillArguments "reset" 0 reset.signature.params (Lowering.prepareReturn resetStart).state).state
  { s with scopes := [] :: s.scopes }

theorem reset_begins : resetting.Begins "sample" {} reset resetStart := by
  have hdeclared : (CompilationUnit.collectingAll CompilationUnit.declareItem resetting.items
      (.empty "sample" {})).result.toOption.isSome = true := by decide +kernel
  obtain ⟨declaring, hdeclaring⟩ := gives_of_isSome hdeclared
  have hsignature : (CompilationUnit.lowerSignature reset.signature resetUnit).result.toOption =
      some ([(LoweredType.composite ⟨0⟩).pointerTo, .elementary .i32], .elementary .i32) := by decide +kernel
  have hopened : (Function.openBody resetDefinition.state).result.toOption = some (⟨0⟩, ⟨1⟩) := by decide +kernel
  exact .intro (List.nil_append _).symm hdeclaring ⟨rfl, rfl⟩ ⟨eq_ok_of_toOption hsignature, rfl⟩ rfl
    ⟨eq_ok_of_toOption hopened, rfl⟩

/-- `point(n, 2)` -/
def resetPoint : Expr :=
  .ofConstruct point [.ident "n" (.elementary .i32) default, .constant (.int 2) (.elementary .i32) default] default

/-- The first expression of `reset` is lowered after its parameters have been copied. -/
theorem reset_reaches : Lowering.Call.Reaches (.function reset) resetStart (.expr resetPoint) resetSpilled := by
  have hprepare : (Lowering.prepareReturn resetStart).result.toOption = some () := by decide +kernel
  have hspill : (Lowering.spillArguments "reset" 0 reset.signature.params
      (Lowering.prepareReturn resetStart).state).result.toOption = some () := by decide +kernel
  have hfound : (Lowering.slotOf "p" resetSpilled).result.toOption.isSome = true := by decide +kernel
  obtain ⟨slot, hslot⟩ := gives_of_isSome hfound
  have hassign : Gives (Lowering.slotOf "p") resetSpilled slot resetSpilled :=
    Lowering.gives_slotOf.2 ⟨(Lowering.gives_slotOf.1 hslot).1, rfl⟩
  have hfirst : Lowering.Call.Reaches (.function reset) resetStart (.statement (.assign "p" resetPoint default))
      resetSpilled :=
    (((Lowering.Call.Reaches.refl _ _).tail
      (.function ⟨eq_ok_of_toOption hprepare, rfl⟩ ⟨eq_ok_of_toOption hspill, rfl⟩)).tail .body).tail .first
  exact hfirst.tail (.assign hassign)

/-- It gives the address of a point. -/
theorem reset_represents : ∃ v t', Gives (Lowering.lowerExpr resetPoint) resetSpilled v t' ∧
    t'.function.valueType? v = some (LoweredType.composite ⟨0⟩).pointerTo ∧ resetSpilled.SlotsAreAddresses ∧
    t'.SlotsAreAddresses ∧ t'.Represents resetPoint v := by
  obtain ⟨hslots, hends, hvalue⟩ := Module.lowerExpr_represents reset_begins (by decide +kernel) reset_reaches
  have hrun : (Lowering.lowerExpr resetPoint resetSpilled).result.toOption.any (fun v =>
      decide ((Lowering.lowerExpr resetPoint resetSpilled).state.function.valueType? v =
        some (LoweredType.composite ⟨0⟩).pointerTo)) = true := by decide +kernel
  obtain ⟨v, hv, hty⟩ := (Option.any_eq_true _ _).1 hrun
  have hgives : Gives (Lowering.lowerExpr resetPoint) resetSpilled v _ := ⟨eq_ok_of_toOption hv, rfl⟩
  exact ⟨v, _, hgives, of_decide_eq_true hty, hslots, hends ⟨v, hgives⟩, hvalue rfl hgives⟩

end Sample

end BlockForm
