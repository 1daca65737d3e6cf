import BlockForm.Lowering.Program
import BlockForm.Proofs.Branching
import BlockForm.Proofs.Sizes

/-!
# BlockForm.Proofs.AfterReturn — what follows a return is left out

A return that is lowered leaves the current block closed, wherever the lowering of its value has moved on to, and the
rest of its list is then skipped unseen.  Its length is reported and goes nowhere else: two programs that differ after a
return (`SameUpToReturn`) are lowered by steps that differ in their reports only (`Action.EndsAlike`), and end in the
same unit or in the same error.
-/

namespace BlockForm

/-! ## Programs up to a return -/

mutual

/-- The statements are the same but for what follows a return in one list of their arms. -/
inductive Statement.SameUpToReturn : Statement → Statement → Prop where
  | whenTrue (condition : Expr) {body body' : Body} (h : Body.SameUpToReturn body body') (whenFalse : Option Body)
      (span : Span) :
      Statement.SameUpToReturn (.branch condition body whenFalse span) (.branch condition body' whenFalse span)
  | whenFalse (condition : Expr) (whenTrue : Body) {body body' : Body} (h : Body.SameUpToReturn body body')
      (span : Span) :
      Statement.SameUpToReturn (.branch condition whenTrue (some body) span)
        (.branch condition whenTrue (some body') span)

/-- The bodies are the same but for what follows a return in one of their lists.  The scopes and places recorded around
that list are free, as they may take in what follows. -/
inductive Body.SameUpToReturn : Body → Body → Prop where
  | mk {statements statements' : List Statement} (h : Statement.SameListUpToReturn statements statements')
      (symbols symbols' : SymbolTable) (span span' : Span) :
      Body.SameUpToReturn ⟨statements, symbols, span⟩ ⟨statements', symbols', span'⟩

/-- The lists are the same but for what follows a return, in them or in a list of one of their statements. -/
inductive Statement.SameListUpToReturn : List Statement → List Statement → Prop where
  | here (value : Option Expr) (span : Span) (rest rest' : List Statement) :
      Statement.SameListUpToReturn (.give value span :: rest) (.give value span :: rest')
  | within {statement statement' : Statement} (h : Statement.SameUpToReturn statement statement')
      (rest : List Statement) :
      Statement.SameListUpToReturn (statement :: rest) (statement' :: rest)
  | later (statement : Statement) {rest rest' : List Statement} (h : Statement.SameListUpToReturn rest rest') :
      Statement.SameListUpToReturn (statement :: rest) (statement :: rest')

end

/-- The functions are the same but for what follows a return in one list of their bodies. -/
inductive FunctionItem.SameUpToReturn : FunctionItem → FunctionItem → Prop where
  | mk (signature : Signature) {body body' : Body} (h : body.SameUpToReturn body') (span span' : Span) :
      SameUpToReturn ⟨signature, body, span⟩ ⟨signature, body', span'⟩

/-- The modules are the same but for what follows a return in one list of one function. -/
inductive Module.SameUpToReturn : Module → Module → Prop where
  | mk (name : String) (before : List Item) {f f' : FunctionItem} (h : f.SameUpToReturn f') (after : List Item)
      (symbols symbols' : SymbolTable) :
      SameUpToReturn ⟨name, before ++ .function f :: after, symbols⟩ ⟨name, before ++ .function f' :: after, symbols'⟩

/-! ## Steps that differ in their reports -/

/-- The same result, and the same state left behind. -/
def Outcome.EndsAlike {σ α : Type} (o o' : Outcome σ α) : Prop := o.result = o'.result ∧ o.state = o'.state

theorem Outcome.EndsAlike.map_state {σ α : Type} {o o' : Outcome σ α} (h : o.EndsAlike o') :
    o.result.map (fun _ => o.state) = o'.result.map fun _ => o'.state := by
  rw [h.1, h.2]

namespace Action

variable {σ α β : Type}

/-- The steps come to the same, whatever they report. -/
def EndsAlike (x y : Action σ α) : Prop := ∀ s, (x s).EndsAlike (y s)

theorem EndsAlike.refl (x : Action σ α) : EndsAlike x x := fun _ => ⟨rfl, rfl⟩

/-- What follows the first step may rest on what that has come to. -/
theorem alike_bind_of_gives {x : Action σ α} {k l : α → Action σ β} {s : σ}
    (h : ∀ a s', x.Gives s a s' → (k a s').EndsAlike (l a s')) : ((x >>= k) s).EndsAlike ((x >>= l) s) := by
  show (Action.bind x k s).EndsAlike (Action.bind x l s)
  unfold Action.bind
  rcases hx : x s with ⟨e | a, s', log⟩
  · exact ⟨rfl, rfl⟩
  · have hgives : x.Gives s a s' := by rw [Gives, hx]; exact ⟨rfl, rfl⟩
    exact h a s' hgives

theorem EndsAlike.bind {x y : Action σ α} {k l : α → Action σ β} (h : EndsAlike x y) (hk : ∀ a, EndsAlike (k a) (l a)) :
    EndsAlike (x >>= k) (y >>= l) := by
  intro s
  show (Action.bind x k s).EndsAlike (Action.bind y l s)
  have hs := h s
  unfold Action.bind
  generalize x s = o at hs
  generalize y s = o' at hs
  obtain ⟨result, s', log⟩ := o
  obtain ⟨result', t', log'⟩ := o'
  obtain ⟨rfl, rfl⟩ : result = result' ∧ s' = t' := hs
  cases result with
  | error e => exact ⟨rfl, rfl⟩
  | ok a => exact hk a s'

theorem EndsAlike.bind_left {x y : Action σ α} (h : EndsAlike x y) (k : α → Action σ β) :
    EndsAlike (x >>= k) (y >>= k) :=
  h.bind fun a => .refl (k a)

theorem alike_bind_right (x : Action σ α) {k l : α → Action σ β} (h : ∀ a, EndsAlike (k a) (l a)) :
    EndsAlike (x >>= k) (x >>= l) :=
  (EndsAlike.refl x).bind h

theorem alike_report (e e' : Event) : EndsAlike (report e : Action σ Unit) (report e') := fun _ => ⟨rfl, rfl⟩

end Action

open Action

namespace Lowering

/-! ## A return closes its block -/

/-- Leaving for another block closes the current one, unless it is closed already. -/
theorem branchTo_closes {s s' : LoweringState} {b : BlockId} {a : Unit} (h : Gives (branchTo b) s a s') :
    (s'.function.block? s'.current).any Block.isTerminated = true := by
  simp only [branchTo, gives_bind (x := isTerminated), gives_isTerminated] at h
  obtain ⟨terminated, _, ⟨hterminated, rfl⟩, h⟩ := h
  cases terminated with
  | true =>
    simp only [if_true, gives_pure] at h
    rw [← h.2, hterminated]
  | false =>
    simp only [Bool.false_eq_true, if_false, gives_bind, gives_inFunction, Function.labelOf_gives, gives_leave] at h
    obtain ⟨target, _, ⟨_, ⟨-, rfl⟩, rfl⟩, f, hf, rfl⟩ := h
    obtain ⟨-, x, ⟨hx, -⟩, rfl⟩ := Function.setExit_gives.1 hf
    have hself := Function.block?_withExit hx (.branch target) s.current
    rw [if_pos rfl] at hself
    exact Site.isTerminated_of_isClosed ⟨_, hself, rfl⟩

theorem lowerReturn_closes {s s' : LoweringState} {value : Option Expr} {a : Unit}
    (h : Gives (lowerReturn value) s a s') : (s'.function.block? s'.current).any Block.isTerminated = true := by
  simp only [lowerReturn, gives_get_bind] at h
  cases value with
  | none =>
    cases hslot : s.function.returnSlot with
    | none =>
      simp only [hslot] at h
      exact branchTo_closes h
    | some slot => simp [hslot, gives_bind] at h
  | some e =>
    cases hslot : s.function.returnSlot with
    | none => simp [hslot, gives_bind] at h
    | some slot =>
      simp only [hslot, gives_bind] at h
      obtain ⟨_, _, _, _, _, _, hbranch⟩ := h
      exact branchTo_closes hbranch

/-! ## Statements -/

/-- Reports how much of a list is left out. -/
def skipRest (rest : List Statement) : Lowering Unit :=
  if rest.isEmpty then return ()
  else do
    let name ← functionName
    Action.report (.statementsSkipped name rest.length)

theorem lowerStatements_cons (statement : Statement) (rest : List Statement) :
    lowerStatements (statement :: rest) = (do
      lowerStatement statement
      if ← isTerminated then skipRest rest else lowerStatements rest) := by
  rw [lowerStatements]
  rfl

theorem alike_skipRest (rest rest' : List Statement) : EndsAlike (skipRest rest) (skipRest rest') := by
  intro s
  unfold skipRest
  split <;> split <;> exact ⟨rfl, rfl⟩

/-- Nothing that follows a return makes a difference. -/
theorem alike_return (value : Option Expr) (span : Span) (rest rest' : List Statement) :
    EndsAlike (lowerStatements (.give value span :: rest)) (lowerStatements (.give value span :: rest')) := by
  intro s
  rw [lowerStatements_cons, lowerStatements_cons, lowerStatement]
  refine alike_bind_of_gives fun _ s₁ hreturn => alike_bind_of_gives fun terminated s₂ hterminated => ?_
  obtain ⟨rfl, rfl⟩ := gives_isTerminated.1 hterminated
  rw [lowerReturn_closes hreturn]
  exact alike_skipRest rest rest' s₁

theorem alike_inScope {α : Type} {x y : Lowering α} (h : EndsAlike x y) : EndsAlike (inScope x) (inScope y) := by
  intro s
  obtain ⟨hresult, hstate⟩ := h { s with scopes := [] :: s.scopes }
  refine ⟨hresult, ?_⟩
  unfold inScope
  dsimp only
  rw [hstate]

mutual

theorem alike_lowerStatement : (st : Statement) → ∀ {st' : Statement}, st.SameUpToReturn st' →
    EndsAlike (lowerStatement st) (lowerStatement st')
  | .branch condition body none _, _, .whenTrue _ h _ _ => by
    rw [lowerStatement, lowerStatement]
    refine alike_bind_right _ fun _ => alike_bind_right _ fun _ => alike_bind_right _ fun _ => ?_
    refine alike_bind_right _ fun _ => alike_bind_right _ fun _ => alike_bind_right _ fun _ => ?_
    exact (alike_lowerBody body h).bind_left _
  | .branch condition body (some _) _, _, .whenTrue _ h _ _ => by
    rw [lowerStatement, lowerStatement]
    refine alike_bind_right _ fun _ => alike_bind_right _ fun _ => alike_bind_right _ fun _ => ?_
    refine alike_bind_right _ fun _ => alike_bind_right _ fun _ => alike_bind_right _ fun _ => ?_
    refine alike_bind_right _ fun _ => ?_
    exact (alike_lowerBody body h).bind_left _
  | .branch condition _ (some body) _, _, .whenFalse _ _ h _ => by
    rw [lowerStatement, lowerStatement]
    refine alike_bind_right _ fun _ => alike_bind_right _ fun _ => alike_bind_right _ fun _ => ?_
    refine alike_bind_right _ fun _ => alike_bind_right _ fun _ => alike_bind_right _ fun _ => ?_
    refine alike_bind_right _ fun _ => alike_bind_right _ fun _ => alike_bind_right _ fun _ => ?_
    refine alike_bind_right _ fun _ => ?_
    exact (alike_lowerBody body h).bind_left _

theorem alike_lowerBody : (body : Body) → ∀ {body' : Body}, body.SameUpToReturn body' →
    EndsAlike (lowerBody body) (lowerBody body')
  | ⟨statements, _, _⟩, _, .mk h _ _ _ _ => by
    rw [lowerBody, lowerBody]
    exact alike_inScope (alike_lowerStatements statements h)

theorem alike_lowerStatements : (statements : List Statement) → ∀ {statements' : List Statement},
    Statement.SameListUpToReturn statements statements' →
    EndsAlike (lowerStatements statements) (lowerStatements statements')
  | _ :: _, _, .here value span rest rest' => alike_return value span rest rest'
  | statement :: _, _, .within h rest => by
    rw [lowerStatements_cons, lowerStatements_cons]
    exact (alike_lowerStatement statement h).bind_left _
  | _ :: rest, _, .later statement h => by
    rw [lowerStatements_cons, lowerStatements_cons]
    refine alike_bind_right _ fun _ => alike_bind_right _ fun terminated => ?_
    cases terminated with
    | false => exact alike_lowerStatements rest h
    | true => exact alike_skipRest _ _

end

theorem alike_lowerFunctionBody {item item' : FunctionItem} (h : item.SameUpToReturn item') :
    EndsAlike (lowerFunctionBody item) (lowerFunctionBody item') := by
  obtain ⟨signature, hbody, span, span'⟩ := h
  refine alike_bind_right _ fun _ => alike_bind_right _ fun _ => ?_
  exact (alike_lowerBody _ hbody).bind_left _

end Lowering

/-! ## Modules -/

namespace CompilationUnit

theorem alike_defineFunction {item item' : FunctionItem} (h : item.SameUpToReturn item') (arguments : List LoweredType)
    (result : LoweredType) :
    EndsAlike (defineFunction item arguments result) (defineFunction item' arguments result) := by
  have hbody := Lowering.alike_lowerFunctionBody h
  obtain ⟨signature, -, span, span'⟩ := h
  intro u
  unfold defineFunction
  dsimp only
  split
  · exact ⟨rfl, rfl⟩
  · split
    · exact ⟨rfl, rfl⟩
    · next entry endBlock _ =>
      obtain ⟨hresult, hstate⟩ := hbody ⟨u, _, entry, endBlock, [[]]⟩
      refine ⟨?_, ?_⟩ <;> dsimp only <;> rw [hstate]
      rw [hresult]

theorem alike_lowerFunction {item item' : FunctionItem} (h : item.SameUpToReturn item') :
    EndsAlike (lowerFunction item) (lowerFunction item') := by
  have hdefine := alike_defineFunction h
  obtain ⟨signature, -, span, span'⟩ := h
  refine alike_bind_right _ fun _ => alike_bind_right _ fun p => ?_
  exact (hdefine p.1 p.2).bind_left _

theorem alike_collecting {x y : Interning Unit} (h : EndsAlike x y) : EndsAlike (collecting x) (collecting y) := by
  intro u
  obtain ⟨hresult, hstate⟩ := h u
  unfold collecting
  generalize x u = o at hresult hstate
  generalize y u = o' at hresult hstate
  obtain ⟨result, v, log⟩ := o
  obtain ⟨result', v', log'⟩ := o'
  obtain rfl : result = result' := hresult
  obtain rfl : v = v' := hstate
  cases result with
  | ok a => exact ⟨rfl, rfl⟩
  | error e =>
    dsimp only
    split <;> exact ⟨rfl, rfl⟩

theorem alike_collectingAll {step : Item → Interning Unit} {item item' : Item} (h : EndsAlike (step item) (step item'))
    (before after : List Item) :
    EndsAlike (collectingAll step (before ++ item :: after)) (collectingAll step (before ++ item' :: after)) := by
  induction before with
  | nil => exact (alike_collecting h).bind_left _
  | cons first before ih => exact alike_bind_right _ fun errors => ih.bind_left _

theorem alike_lowerProgram {m m' : Module} (h : m.SameUpToReturn m') :
    EndsAlike (lowerProgram m) (lowerProgram m') := by
  obtain @⟨name, before, f, f', hf, after, symbols, symbols'⟩ := h
  -- callers see the signature of the function, which is the same
  have hdeclare : EndsAlike (declareItem (.function f)) (declareItem (.function f')) := by
    obtain ⟨signature, -, span, span'⟩ := hf
    exact .refl _
  refine (alike_report _ _).bind fun _ => (alike_collectingAll hdeclare before after).bind fun declaring => ?_
  exact (alike_collectingAll (alike_lowerFunction hf) before after).bind_left _

end CompilationUnit

/-- **What follows a return makes no difference.**  If two modules differ only in the statements that follow a return,
in one list of statements at any depth, then they lower to the same unit or are refused with the same error, whatever
those statements are. -/
theorem Module.lower_sameUpToReturn {m m' : Module} (h : m.SameUpToReturn m') (options : Options) :
    m.lower options = m'.lower options := by
  have hname : m.name = m'.name := by
    cases h
    rfl
  have halike : (m.lowerAs m.name options).EndsAlike (m'.lowerAs m.name options) :=
    CompilationUnit.alike_lowerProgram h (.empty m.name options)
  rw [Module.lower, Module.lower, ← hname]
  exact halike.map_state

namespace Sample

/-- `fn small(n: i32) -> bool { if n < 10 { before; return true; after }; return false }` -/
def small (before after : List Statement) : Module :=
  ⟨"sample", [.function (.of ⟨"small", [⟨"n", .elementary .i32, default⟩], some (.elementary .bool), default⟩
    (.ofStatements [
      .branch (.binary .less (.ident "n" (.elementary .i32) default) (.constant (.int 10) (.elementary .i32) default)
          (.elementary .bool) default)
        (.ofStatements (before ++ .give (some (.ofBool true default)) default :: after) default) none default,
      .give (some (.ofBool false default)) default] default))], .empty⟩

/-- An assignment to an unknown name, the declaration of a function as a variable, and a return without a value. -/
def stray : List Statement :=
  [.assign "missing" (.ident "nowhere" (.elementary .i32) default) default,
    .declare "f" (.operator .implication [.nil, .nil]) none default, .give none default]

/-- What is refused in front of the return makes no difference after it. -/
theorem small_sameUpToReturn :
    (small [] []).SameUpToReturn (small [] stray) ∧ ((small stray []).lower {}).toOption.isSome = false ∧
      ∃ u, (small [] []).lower {} = .ok u ∧ (small [] stray).lower {} = .ok u := by
  have hsame : (small [] []).SameUpToReturn (small [] stray) :=
    .mk _ [] (.mk _ (.mk (.within (.whenTrue _ (.mk (.here _ _ [] stray) _ _ _ _) none _) _) _ _ _ _) _ _) [] _ _
  have hrun : ((small [] []).lower {}).toOption.isSome = true := by decide +kernel
  obtain ⟨u, hu⟩ := Option.isSome_iff_exists.1 hrun
  have hlower := eq_ok_of_toOption hu
  exact ⟨hsame, by decide +kernel, u, hlower, (Module.lower_sameUpToReturn hsame {}).symm.trans hlower⟩

end Sample

end BlockForm
