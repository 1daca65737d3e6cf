import BlockForm.Diagnostic.Error
import BlockForm.Diagnostic.Event

/-!
# BlockForm.Action — steps that change a state, may fail and report events

A failing step keeps the state it reached, so what an error leaves behind can be stated.  Events are collected
beside the state: no step can read them, and two runs can be compared with their events left out.
-/

namespace BlockForm

/-- What a step comes to. -/
structure Outcome (σ α : Type) where
  result : Except Error α
  state : σ
  log : List Event

/-- A step on a state of type `σ` with a result of type `α`. -/
def Action (σ α : Type) : Type := σ → Outcome σ α

namespace Action

variable {σ α β γ : Type}

/-- Runs a step from a state. -/
def run (x : Action σ α) (s : σ) : Outcome σ α := x s

/-- The step that changes nothing. -/
protected def pure (a : α) : Action σ α := fun s => ⟨.ok a, s, []⟩

/-- One step after another; the second is left out if the first fails. -/
protected def bind (x : Action σ α) (f : α → Action σ β) : Action σ β := fun s =>
  match x s with
  | ⟨.error e, s', log⟩ => ⟨.error e, s', log⟩
  | ⟨.ok a, s', log⟩ =>
    let o := f a s'
    ⟨o.result, o.state, log ++ o.log⟩

instance : Monad (Action σ) where
  pure := Action.pure
  bind := Action.bind

theorem pure_run (a : α) (s : σ) : (pure a : Action σ α).run s = ⟨.ok a, s, []⟩ := rfl

theorem bind_run_ok {x : Action σ α} {f : α → Action σ β} {s s' : σ} {a : α} {log : List Event}
    (h : x.run s = ⟨.ok a, s', log⟩) :
    (x >>= f).run s = ⟨(f a |>.run s').result, (f a |>.run s').state, log ++ (f a |>.run s').log⟩ := by
  show Action.bind x f s = _
  unfold run at h
  simp only [Action.bind, h, run]

theorem bind_run_error {x : Action σ α} {f : α → Action σ β} {s s' : σ} {e : Error}
    {log : List Event} (h : x.run s = ⟨.error e, s', log⟩) :
    (x >>= f).run s = ⟨.error e, s', log⟩ := by
  show Action.bind x f s = _
  unfold run at h
  simp only [Action.bind, h]

protected theorem id_map (x : Action σ α) : id <$> x = x := by
  funext s
  show Action.bind x (fun a => Action.pure a) s = x s
  simp only [Action.bind]
  split
  · next h => rw [h]
  · next h => rw [h]; simp [Action.pure]

protected theorem pure_bind (a : α) (f : α → Action σ β) : pure a >>= f = f a := by
  funext s
  show Action.bind (Action.pure a) f s = f a s
  simp [Action.bind, Action.pure]

protected theorem bind_assoc (x : Action σ α) (f : α → Action σ β) (g : β → Action σ γ) :
    x >>= f >>= g = x >>= fun a => f a >>= g := by
  funext s
  show Action.bind (Action.bind x f) g s = Action.bind x (fun a => Action.bind (f a) g) s
  simp only [Action.bind]
  rcases x s with ⟨_ | a, s', log⟩
  · rfl
  · simp only
    rcases f a s' with ⟨_ | b, s'', log'⟩
    · rfl
    · simp

instance : LawfulMonad (Action σ) :=
  LawfulMonad.mk' (Action σ) Action.id_map Action.pure_bind Action.bind_assoc

/-- The state. -/
def get : Action σ σ := fun s => ⟨.ok s, s, []⟩

/-- Replaces the state. -/
def set (s : σ) : Action σ Unit := fun _ => ⟨.ok (), s, []⟩

/-- Changes the state. -/
def modify (f : σ → σ) : Action σ Unit := fun s => ⟨.ok (), f s, []⟩

/-- Reports an event. -/
def report (e : Event) : Action σ Unit := fun s => ⟨.ok (), s, [e]⟩

/-- Fails without a report. -/
def fail (e : Error) : Action σ α := fun s => ⟨.error e, s, []⟩

/-- Fails with a fault, which is reported. -/
def fault (f : Fault) : Action σ α := fun s => ⟨.error (.internal f), s, [.fault f]⟩

/-- The outcome of a check, a fault being reported. -/
def check : Except Fault α → Action σ α
  | .ok a => Action.pure a
  | .error f => fault f

/-- The value, or a reported fault in its place. -/
def need (value : Option α) (f : Fault) : Action σ α :=
  match value with
  | some a => Action.pure a
  | none => fault f

/-- The handle of the object at a position, if the table has room for it. -/
def handle (kind : HandleKind) (index : Nat) : Action σ (Handle kind) :=
  if index < Handle.limit then Action.pure ⟨index⟩ else fail (.internal (.tooManyObjects kind))

end Action

end BlockForm
