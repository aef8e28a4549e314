import Wiring.Diagram.Compose
import Wiring.Proofs.Diagram.Uniting

/-!
# Bare wires

A bare wire is an input joined to an output. To add a wire is to put it beside all that is there,
under ids that are not in use.

## Main definitions

- `Diagram.wire` — the diagram of a single wire

## Main statements

- `Diagram.beside_addWire` — a wire more is a wire beside
- `Diagram.feed_addWire` — outputs that are fed by the inputs, and one more of each
-/

namespace Wiring.Diagram

open scoped Unlimited

variable {α : Type} [Inhabited α] {g : Diagram α} {i k : Nat}

/-- A single wire, from `i` to `i + 1`. -/
def wire (i : Nat) : Diagram α where
  nodes :=
    ⟨[(i, .ofEdges i default [] [(i + 1, 1)]), (i + 1, .ofEdges (i + 1) default [(i, 1)] [])],
      by simp⟩
  inputs := [i]
  outputs := [i + 1]
  nextId := i + 2

theorem node?_wire : (wire i : Diagram α).node? k =
    if k = i then some (.ofEdges i default [] [(i + 1, 1)])
    else if k = i + 1 then some (.ofEdges (i + 1) default [(i, 1)] []) else none := by
  simp only [node?, IdMap.get?, wire, List.lookup_cons, List.lookup_nil]
  by_cases hi : k = i
  · simp [hi]
  · have hne : (k == i) = false := by simpa using hi
    rw [hne, if_neg hi]
    by_cases ho : k = i + 1
    · simp [ho]
    · have hne : (k == i + 1) = false := by simpa using ho
      rw [hne, if_neg ho]

theorem contains_wire : (wire i : Diagram α).contains k = true ↔ k = i ∨ k = i + 1 := by
  rw [contains_eq_isSome, node?_wire]
  by_cases hi : k = i
  · simp [hi]
  · by_cases ho : k = i + 1 <;> simp [hi, ho]

theorem above_wire : (wire i : Diagram α).above k = if k = i + 1 then [i] else [] := by
  rw [above, node?_wire]
  by_cases hi : k = i
  · rw [if_pos hi, if_neg (by omega)]
    rfl
  · rw [if_neg hi]
    split <;> rfl

theorem below_wire : (wire i : Diagram α).below k = if k = i then [i + 1] else [] := by
  rw [below, node?_wire]
  by_cases hi : k = i
  · rw [if_pos hi, if_pos hi]
    rfl
  · rw [if_neg hi, if_neg hi]
    split <;> rfl

theorem label?_wire {label : α} (h : (wire i : Diagram α).label? k = some label) :
    label = default := by
  rw [label?, node?_wire] at h
  split at h
  · cases h
    rfl
  · split at h
    · cases h
      rfl
    · cases h

theorem coherent_wire (i : Nat) : (wire i : Diagram α).Coherent where
  id_eq k n hn := by
    rw [node?_wire] at hn
    split at hn
    · cases hn
      exact Eq.symm ‹_›
    · split at hn
      · cases hn
        exact Eq.symm ‹_›
      · cases hn
  positive k n hn := by
    have hone (j : Nat) : (Tally.ofList [(j, 1)]).Positive := Tally.positive_empty.add j 1
    rw [node?_wire] at hn
    split at hn
    · cases hn
      exact ⟨Tally.positive_empty, hone _⟩
    · split at hn
      · cases hn
        exact ⟨hone _, Tally.positive_empty⟩
      · cases hn
  agree u v := by
    rw [above_wire, below_wire]
    by_cases hv : v = i + 1 <;> by_cases hu : u = i <;> simp [hv, hu, Ne.symm]

theorem acyclic_wire (i : Nat) : (wire i : Diagram α).Acyclic := by
  refine ⟨id, ?_⟩
  intro u v hu
  rw [above_wire] at hu
  split at hu
  · obtain rfl := List.mem_singleton.1 hu
    show u < v
    omega
  · cases hu

theorem idsBelow_wire (i : Nat) : (wire i : Diagram α).IdsBelow := by
  intro k hk
  show k < i + 2
  rcases contains_wire.1 hk with rfl | rfl <;> omega

/-- **A wire more is a wire beside.** -/
theorem beside_addWire (hg : g.IdsBelow) : Beside g (wire g.nextId) g.addWire where
  nodes := rfl
  apart k hk := by
    have := hg k hk
    rw [← Bool.not_eq_true, contains_wire]
    omega
  inputs := rfl
  outputs := rfl
  nextId_left := Nat.le_add_right _ _
  nextId_right := Nat.le_refl _

theorem feed_addWire (hg : g.IdsBelow) (hout : ∀ o ∈ g.outputs, g.contains o = true)
    (hfeed : g.outputs.map g.above = g.inputs.map ([·])) :
    g.addWire.outputs.map g.addWire.above = g.addWire.inputs.map ([·]) := by
  have hb := beside_addWire hg
  have hold : g.outputs.map g.addWire.above = g.outputs.map g.above :=
    List.map_congr_left fun o ho => hb.above_left (hout o ho)
  have hnew : g.addWire.above (g.nextId + 1) = [g.nextId] := by
    rw [hb.symm.above_left (contains_wire.2 (.inr rfl)), above_wire, if_pos rfl]
  show (g.outputs ++ [g.nextId + 1]).map g.addWire.above = (g.inputs ++ [g.nextId]).map ([·])
  rw [List.map_append, hold, hfeed, List.map_append, List.map_singleton, hnew]
  rfl

/-! ## Only wires -/

theorem length_inputs_identity (n : Nat) : (identity n : Diagram α).inputs.length = n := by
  induction n with
  | zero => rfl
  | succ n ih =>
    show ((identity n : Diagram α).inputs ++ [_]).length = n + 1
    rw [List.length_append, ih, List.length_singleton]

theorem length_outputs_identity (n : Nat) : (identity n : Diagram α).outputs.length = n := by
  induction n with
  | zero => rfl
  | succ n ih =>
    show ((identity n : Diagram α).outputs ++ [_]).length = n + 1
    rw [List.length_append, ih, List.length_singleton]

end Wiring.Diagram
