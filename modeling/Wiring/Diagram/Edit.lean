import Wiring.Diagram.Basic

/-!
# Edits

An edit changes a diagram and may be refused. When it is refused the diagram is left as the edit
had made it by then, so that "a refused edit changes nothing" is a statement about each single edit
and not built into their type.

## Main definitions

- `Edit` — edits of diagrams with labels in `α`
- `Edit.runOn` — what an edit answers on a diagram, and the diagram it leaves
- `Edit.ask` — an edit that only reads, and is refused when its question is
- `Edit.change` — an edit that cannot be refused
- `Edit.ofRun` — the edit that is given by its runs
- `Edit.repeated` — an edit several times over
-/

namespace Wiring

/-- **Edits of a diagram**: the diagram is the state, and survives a fault. -/
abbrev Edit (α : Type) := ExceptT Fault (StateM (Diagram α))

namespace Edit

variable {α β γ : Type}

/-- What the edit answers on `g`, and the diagram that it leaves. -/
def runOn (e : Edit α β) (g : Diagram α) : Except Fault β × Diagram α :=
  (ExceptT.run e).run g

/-- Asks the diagram and leaves it alone. -/
def ask (question : Diagram α → Except Fault β) : Edit α β := do
  match question (← get) with
  | .ok answer => pure answer
  | .error fault => throw fault

/-- Changes the diagram in a way that cannot be refused. -/
def change (f : Diagram α → Diagram α) : Edit α Unit := modify f

/-- The edit that answers and leaves what `run` gives for the diagram. -/
def ofRun (run : Diagram α → Except Fault β × Diagram α) : Edit α β := run

/-- Runs the edit `n` times, until it is refused. -/
def repeated (e : Edit α Unit) : Nat → Edit α Unit
  | 0 => pure ()
  | n + 1 => do
    e
    repeated e n

/-! ## What the pieces do -/

@[simp]
theorem runOn_pure (b : β) (g : Diagram α) : runOn (pure b) g = (.ok b, g) := rfl

@[simp]
theorem runOn_throw (fault : Fault) (g : Diagram α) :
    runOn (throw fault : Edit α β) g = (.error fault, g) := rfl

@[simp]
theorem runOn_change (f : Diagram α → Diagram α) (g : Diagram α) :
    runOn (change f) g = (.ok (), f g) := rfl

@[simp]
theorem runOn_ofRun (run : Diagram α → Except Fault β × Diagram α) (g : Diagram α) :
    runOn (ofRun run) g = run g := rfl

@[simp]
theorem runOn_get (g : Diagram α) : runOn (get : Edit α (Diagram α)) g = (.ok g, g) := rfl

/-- An edit goes on with the answer of the one before it, or stops where that one stopped. -/
theorem runOn_bind (e : Edit α β) (f : β → Edit α γ) (g : Diagram α) :
    runOn (e >>= f) g =
      match runOn e g with
      | (.ok b, h) => runOn (f b) h
      | (.error fault, h) => (.error fault, h) := by
  simp only [runOn, ExceptT.run_bind, StateT.run_bind]
  cases h : (ExceptT.run e).run g with
  | mk answer left =>
    cases answer with
    | ok b => simp [bind]
    | error fault => rfl

/-- A question leaves the diagram as it is. -/
@[simp]
theorem runOn_ask (question : Diagram α → Except Fault β) (g : Diagram α) :
    runOn (ask question) g = (question g, g) := by
  simp only [ask, runOn_bind, runOn_get]
  cases question g <;> rfl

/-- An edit that starts with a question stops there if it is refused, and changes nothing. -/
theorem runOn_ask_bind (question : Diagram α → Except Fault β) (f : β → Edit α γ)
    (g : Diagram α) :
    runOn (ask question >>= f) g =
      match question g with
      | .ok answer => runOn (f answer) g
      | .error fault => (.error fault, g) := by
  rw [runOn_bind, runOn_ask]
  cases question g <;> rfl

end Edit

end Wiring
