import BlockForm.Proofs.PlainLowering
import BlockForm.Proofs.Program

/-!
# BlockForm.Proofs.Verified — the verifier finds nothing in a lowered unit

In a complete definition the instructions stand in layout order, an instruction reads results of earlier ones only,
every block has its exit and is placed, and the last block returns: that is all the verifier looks at.
-/

namespace BlockForm

open Action

namespace Function

variable {f : Function}

/-- The results of the instructions are among the values. -/
def Covers (f : Function) (ids : List InstructionId) (defined : List ValueId) : Prop :=
  ∀ i ∈ ids, ∀ ins, f.instruction? i = some ins → ins.value ∈ defined

/-- In a list of all instructions, those made before one stand before it. -/
theorem mem_before_of_lt {before after : List InstructionId} {i j : InstructionId}
    (h : before ++ i :: after = f.allInstructions) (hlt : j.index < i.index) : j ∈ before := by
  have hi : f.allInstructions[before.length]? = some i := by rw [← h]; simp
  simp only [allInstructions, List.getElem?_map, Option.map_eq_some_iff] at hi
  obtain ⟨n, hn, rfl⟩ := hi
  obtain ⟨hlen, he⟩ := List.getElem?_eq_some_iff.1 hn
  simp only [List.getElem_range] at he
  subst he
  have hj : f.allInstructions[j.index]? = some j := by
    have : j.index < f.instructions.size := by
      simp only [List.length_range] at hlen
      exact Nat.lt_trans hlt hlen
    simp [allInstructions, this]
  rw [← h, List.getElem?_append_left hlt] at hj
  exact List.mem_of_getElem? hj

/-- A typed value that is no result, or one that has been computed, can be read. -/
theorem isAvailable_of_covers (hc : f.Coherent) {ids : List InstructionId} {defined : List ValueId}
    (hcov : f.Covers ids defined) {v : ValueId} {x : Value} (hx : f.value? v = some x) (ht : x.ty.isSome)
    (hr : ∀ i, x.kind = .result i → i ∈ ids) : f.isAvailable defined v = true := by
  obtain ⟨hlabel, hnil⟩ := hc.operand hx ht
  rw [isAvailable, hx]
  cases hk : x.kind with
  | constant c | literal id content | argument p => simp [hk]
  | label b => exact absurd hk (hlabel b)
  | nil => exact absurd hk hnil
  | result i =>
    obtain ⟨ins, hins, rfl⟩ := hc.result hx hk
    simpa [hk] using hcov i (hr i hk) ins hins

theorem undefinedOperands_eq_nil {defined operands : List ValueId}
    (h : ∀ v ∈ operands, f.isAvailable defined v = true) : f.undefinedOperands defined operands = [] := by
  rw [undefinedOperands, List.map_eq_nil_iff, List.filter_eq_nil_iff]
  intro v hv
  simp [h v hv]

/-- Instructions in layout order read what has been computed. -/
theorem undefinedInRow_eq_nil (hc : f.Coherent) {ids : List InstructionId} :
    ∀ {before after : List InstructionId} {defined : List ValueId}, f.Covers before defined →
    before ++ ids ++ after = f.allInstructions →
    f.undefinedInRow defined (ids.filterMap f.instruction?) = [] ∧
      f.Covers (before ++ ids) (definedAfter defined (ids.filterMap f.instruction?)) := by
  induction ids with
  | nil =>
    intro before after defined hcov _
    exact ⟨rfl, by simpa [definedAfter] using hcov⟩
  | cons i ids ih =>
    intro before after defined hcov hall
    have hlt : i.index < f.instructions.size := mem_allInstructions.1 (by rw [← hall]; simp)
    have hins : f.instruction? i = some f.instructions[i.index] := Array.getElem?_eq_getElem hlt
    generalize f.instructions[i.index] = ins at hins
    have hcov' : f.Covers (before ++ [i]) (ins.value :: defined) := by
      intro j hj ins' hins'
      rcases List.mem_append.1 hj with hj | hj
      · exact List.mem_cons_of_mem _ (hcov j hj ins' hins')
      · obtain rfl := List.mem_singleton.1 hj
        rw [hins] at hins'
        cases hins'
        exact List.mem_cons_self ..
    obtain ⟨hrow, hcovered⟩ := ih hcov' (by simpa using hall)
    rw [List.filterMap_cons_some hins]
    refine ⟨?_, by simpa [definedAfter] using hcovered⟩
    rw [undefinedInRow, hrow, List.append_nil]
    refine undefinedOperands_eq_nil fun v hv => ?_
    obtain ⟨x, hx, ht, hr⟩ := hc.reads hins v hv
    exact isAvailable_of_covers hc hcov hx ht fun j hj =>
      mem_before_of_lt (by simpa using hall) (hr j hj)

theorem instructionsWithReturn_eq (x : Block) : f.instructionsWithReturn x = x.row.filterMap f.instruction? := by
  rw [instructionsWithReturn, Block.row, List.filterMap_append, instructionsOf]
  congr 1
  cases x.exit with
  | none => rfl
  | some e =>
    cases e with
    | give id => cases hi : f.instruction? id <;> simp [hi]
    | branch | condBranch | unreachable => rfl

end Function

namespace Site

variable {g : Site}

/-- A placed block of a complete definition has its exit. -/
theorem Done.isClosed (h : g.Done) {b : BlockId} (hb : b ∈ g.state.function.blockIds) :
    g.state.function.IsClosed b := by
  by_cases hc : b = g.state.current
  · obtain ⟨x, j, hx, he, -⟩ := h.returns
    exact ⟨x, hc ▸ hx, by simp [he]⟩
  · exact h.sound.laid.closed hb hc

theorem Done.mem_blockIds (h : g.Done) {b : BlockId} (hb : b.index < g.state.function.blocks.size) :
    b ∈ g.state.function.blockIds := by
  by_contra hn
  exact h.placed b ⟨hb, hn⟩

/-- An exit leads to a placed block. -/
theorem Done.target_placed (h : g.Done) {b : BlockId} {x : Block} {e : Exit} {t : ValueId}
    (hx : g.state.function.block? b = some x) (he : x.exit = some e) (ht : t ∈ e.targets) :
    t ∈ g.state.function.placedBlocks.map Block.label := by
  obtain ⟨c, hc⟩ := h.sound.coherent.targets hx he t ht
  obtain ⟨y, hy, rfl⟩ := h.sound.coherent.label_iff.1 hc
  have hmem := h.mem_blockIds (Function.block?_lt hy)
  exact List.mem_map_of_mem (List.mem_filterMap.2 ⟨c, hmem, hy⟩)

theorem Done.blockViolations_eq_nil (h : g.Done) {bs : List BlockId} : ∀ (before : List BlockId)
    {defined : List ValueId}, g.state.function.blockIds = before ++ bs →
    g.state.function.Covers (g.state.function.rows before) defined →
    g.state.function.blockViolations (g.state.function.placedBlocks.map Block.label) defined
      (bs.filterMap g.state.function.block?) = [] := by
  have hc := h.sound.coherent
  have hl := h.sound.laid
  induction bs with
  | nil => exact fun _ _ _ _ => rfl
  | cons b bs ih =>
    intro before defined hsplit hcov
    obtain ⟨x, hx, hexit⟩ := h.isClosed (b := b) (by simp [hsplit])
    obtain ⟨e, he⟩ := Option.isSome_iff_exists.1 hexit
    have hrow : g.state.function.rows [b] = x.row := by simp [Function.row, hx]
    have hall : g.state.function.rows before ++ x.row ++ g.state.function.rows bs =
        g.state.function.allInstructions := by
      rw [← hl.order, hsplit, ← hrow, ← Function.rows_append, ← Function.rows_append]
      simp
    obtain ⟨hundef, hcov'⟩ := Function.undefinedInRow_eq_nil hc hcov hall
    rw [← hrow, ← Function.rows_append] at hcov'
    rw [List.filterMap_cons_some hx, Function.blockViolations, Function.instructionsWithReturn_eq, hundef,
      List.nil_append]
    have hcond : g.state.function.undefinedOperands (Function.definedAfter defined
        (x.row.filterMap g.state.function.instruction?)) (x.exit.elim [] Exit.conditions) = [] := by
      refine Function.undefinedOperands_eq_nil fun c hcm => ?_
      rw [he] at hcm
      obtain ⟨y, hy, hty, hr⟩ := hl.conditions hsplit hx he hcm
      exact Function.isAvailable_of_covers hc (hrow ▸ hcov') hy hty hr
    have hexits : g.state.function.exitViolations (g.state.function.placedBlocks.map Block.label) x = [] := by
      rw [Function.exitViolations, he]
      simp only [List.map_eq_nil_iff, List.filter_eq_nil_iff]
      intro t ht
      simpa using h.target_placed hx he ht
    rw [hcond, hexits, List.nil_append, List.nil_append]
    exact ih (before ++ [b]) (by simpa using hsplit) (hrow ▸ hcov')

theorem Done.endsWithReturn (h : g.Done) : g.state.function.endsWithReturn = true := by
  obtain ⟨bs, hbs⟩ := h.sound.laid.last
  obtain ⟨x, j, hx, he, hlabel⟩ := h.returns
  have hlast : g.state.function.placedBlocks.getLast? = some x := by
    simp [Function.placedBlocks, hbs, List.filterMap_append, hx]
  simp [Function.endsWithReturn, hlast, hlabel, he]

/-- **The verifier finds nothing in a complete definition.** -/
theorem Done.violations_eq_nil (h : g.Done) : g.state.function.violations = [] := by
  rw [Function.violations, h.endsWithReturn, if_pos rfl, List.append_nil]
  exact h.blockViolations_eq_nil [] rfl (by intro i hi; cases hi)

end Site

namespace CompilationUnit

theorem Finished.violations_eq_nil {u : CompilationUnit} (h : u.Finished) : u.violations = [] := by
  rw [violations, List.flatMap_eq_nil_iff]
  intro f hf
  obtain ⟨hm, hd⟩ := List.mem_filter.1 hf
  rcases h.functions f hm with hdecl | ⟨g, hg, rfl⟩
  · simp [hdecl] at hd
  · exact hg.violations_eq_nil

/-! ## Verification changes nothing -/

/-- Both passes over a module, and the errors they collect. -/
def passes (m : Module) : Interning (List Error) := do
  Action.report (.moduleStarted m.name m.items.length)
  let declaring ← collectingAll declareItem m.items
  let lowering ← collectingAll lowerItem m.items
  return declaring ++ lowering

/-- What becomes of a module whose passes have collected the given errors. -/
def conclude (m : Module) (errors : List Error) : Interning Unit :=
  if errors.isEmpty then do
    verifyFinished m
    let u ← Action.get
    Action.report (.moduleFinished m.name u.functions.size u.typedefs.size u.globals.size)
  else Action.fail (.failed m.name errors)

theorem lowerProgram_eq (m : Module) : lowerProgram m = passes m >>= conclude m := by
  simp only [lowerProgram, passes, conclude, bind_assoc, pure_bind]

theorem plain_passes (m : Module) (b : Bool) : Plain (withVerify b) .fault (passes m) :=
  (plain_report _).bind fun _ => (plain_collectingAll plain_declareItem _).bind fun _ =>
    (plain_collectingAll plain_lowerItem _).bind fun _ => plain_pure _

/-- Passes without errors leave a unit without violations. -/
theorem violations_of_passes {m : Module} {name : String} {options : Options} {u : CompilationUnit}
    (h : Gives (passes m) (.empty name options) [] u) : u.violations = [] := by
  simp only [passes, gives_report_bind, gives_bind (x := collectingAll _ _), gives_pure,
    List.append_eq_nil_iff] at h
  obtain ⟨_, u₁, h₁, _, _, h₂, ⟨rfl, rfl⟩, rfl⟩ := h
  exact (finished_of_passes h₁ h₂).violations_eq_nil

theorem verifyFinished_of_no_violations (m : Module) {u : CompilationUnit} (h : u.violations = []) :
    verifyFinished m u = ⟨.ok (), u, []⟩ := by
  unfold verifyFinished verify
  show Action.bind Action.get _ u = _
  simp only [Action.bind, Action.get]
  cases u.options.verify with
  | false => rfl
  | true =>
    show Action.bind (Action.bind Action.get _) _ u = _
    simp only [Action.bind, Action.get, h]
    rfl

/-- What the passes come to decides how lowering ends; the verifier has no part in it. -/
theorem lowerProgram_run (m : Module) (name : String) (options : Options) :
    let o := passes m (.empty name options)
    lowerProgram m (.empty name options) = match o.result with
      | .error e => ⟨.error e, o.state, o.log⟩
      | .ok [] => ⟨.ok (), o.state,
          o.log ++ [.moduleFinished m.name o.state.functions.size o.state.typedefs.size o.state.globals.size]⟩
      | .ok (e :: es) => ⟨.error (.failed m.name (e :: es)), o.state, o.log⟩ := by
  rw [lowerProgram_eq]
  show Action.bind (passes m) (conclude m) (.empty name options) = _
  unfold Action.bind
  rcases hp : passes m (.empty name options) with ⟨e | es, u, log⟩
  · rfl
  · cases es with
    | cons e es => simp [conclude, Action.fail]
    | nil =>
      have hv : u.violations = [] := violations_of_passes ⟨by rw [hp], by rw [hp]⟩
      have hrun : conclude m [] u =
          ⟨.ok (), u, [.moduleFinished m.name u.functions.size u.typedefs.size u.globals.size]⟩ := by
        show Action.bind (verifyFinished m) _ u = _
        simp only [Action.bind, verifyFinished_of_no_violations m hv]
        rfl
      simp only [hrun]

end CompilationUnit

open CompilationUnit

/-- Whether the unit is verified makes no difference to the run. -/
theorem Module.lowerAs_withVerify (m : Module) (name : String) (options : Options) :
    let o := m.lowerAs name { options with verify := false }
    m.lowerAs name { options with verify := true } = ⟨o.result, o.state.withVerify true, o.log⟩ := by
  have hblind := (plain_passes m true).blind (.empty name { options with verify := false })
  have hu : (CompilationUnit.empty name { options with verify := false }).withVerify true =
      .empty name { options with verify := true } := rfl
  rw [hu] at hblind
  show lowerProgram m (.empty name { options with verify := true }) =
    ⟨(lowerProgram m (.empty name { options with verify := false })).result,
      ((lowerProgram m (.empty name { options with verify := false })).state).withVerify true,
      (lowerProgram m (.empty name { options with verify := false })).log⟩
  rw [lowerProgram_run, lowerProgram_run, hblind]
  rcases passes m (.empty name { options with verify := false }) with ⟨e | _ | ⟨e, es⟩, u, log⟩ <;> rfl

/-- **Lowering never produces a unit that its own verifier rejects.**  Passes without errors leave a unit without
violations; lowering with and without verification gives the same result, up to the option kept in the unit; and no
module is refused because it failed verification. -/
theorem Module.lower_passes_verification (m : Module) (options : Options) :
    (∀ {u₁ u}, Gives (collectingAll declareItem m.items) (.empty m.name options) [] u₁ →
      Gives (collectingAll lowerItem m.items) u₁ [] u → u.violations = []) ∧
    m.lower { options with verify := true } = (m.lower { options with verify := false }).map (withVerify true) ∧
    ∀ unit violations, m.lower options ≠ .error (.internal (.verification unit violations)) := by
  refine ⟨fun h₁ h₂ => (finished_of_passes h₁ h₂).violations_eq_nil, ?_, ?_⟩
  · have h := m.lowerAs_withVerify m.name options
    simp only [Module.lower, h]
    cases (m.lowerAs m.name { options with verify := false }).result <;> rfl
  · intro unit violations h
    have herr := except_map_eq_error.1 h
    have hrun : m.lowerAs m.name options = lowerProgram m (.empty m.name options) := rfl
    rw [hrun, lowerProgram_run] at herr
    rcases hp : passes m (.empty m.name options) with ⟨e | _ | ⟨e, es⟩, u, log⟩
    · rw [hp] at herr
      cases herr
      have := (plain_passes m true).error (s := .empty m.name options) (by rw [hp])
      cases this
    · rw [hp] at herr
      cases herr
    · rw [hp] at herr
      cases herr

/-- The sample lowers without errors, and its unit has no violations. -/
theorem Sample.lowered_passes_verification :
    Sample.program.lower {} = .ok Sample.lowered ∧ Sample.lowered.violations = [] := by
  obtain ⟨hpass, -, -⟩ := Module.lower_passes_verification Sample.program {}
  obtain ⟨u₁, h₁, h₂⟩ := lowerProgram_gives (Module.lower_gives Sample.lower_program)
  exact ⟨Sample.lower_program, hpass h₁ h₂⟩

end BlockForm
