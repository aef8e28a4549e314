import Wiring.Diagram.Nodes
import Wiring.IdMap.Lemmas

/-!
# Lookups in changed diagrams

What the basic changes of a diagram do to the nodes found in it.

## Main statements

- `Diagram.node?_updateNode`, `Diagram.node?_join` — changes in place
- `Diagram.node?_removeNode` — removal of a node
- `Diagram.find_eq_ok_iff`, `Diagram.find_eq_error_iff` — when a lookup is refused
- `Diagram.checkEdge_eq_ok_iff` — when an edge is allowed
-/

namespace Wiring.Diagram

variable {α : Type} {g : Diagram α} {i j k s t m : Nat}

theorem contains_eq_isSome : g.contains k = (g.node? k).isSome := rfl

theorem find_eq_ok_iff {n : Node α} : g.find k = .ok n ↔ g.node? k = some n := by
  unfold find
  cases g.node? k <;> simp

theorem find_eq_error_iff {fault : Fault} :
    g.find k = .error fault ↔ g.node? k = none ∧ fault = .unknownNode k := by
  unfold find
  cases g.node? k <;> simp [eq_comm]

/-! ## Changes in place -/

theorem node?_updateNode {f : Node α → Node α} :
    (g.updateNode i f).node? j = if j = i then (g.node? i).map f else g.node? j :=
  IdMap.get?_modify

@[simp] theorem ids_updateNode {f : Node α → Node α} : (g.updateNode i f).ids = g.ids :=
  IdMap.keys_modify

@[simp] theorem contains_updateNode {f : Node α → Node α} :
    (g.updateNode i f).contains j = g.contains j := by
  simp only [contains_eq_isSome, node?_updateNode]
  by_cases hj : j = i <;> simp [hj]

/-- Edges are recorded at their source as children, and then at their target as parents. -/
theorem node?_join [Words] :
    (g.join s t m).node? j =
      (g.node? j).map fun n =>
        let n := if j = s then n.addChild t m else n
        if j = t then n.addParent s m else n := by
  simp only [join, node?_updateNode]
  by_cases ht : j = t
  · subst ht
    by_cases hs : j = s
    · subst hs
      simp [Function.comp_def]
    · simp [hs]
  · by_cases hs : j = s
    · subst hs
      simp [ht]
    · simp [ht, hs]

@[simp] theorem contains_join [Words] : (g.join s t m).contains j = g.contains j := by
  simp [join]

/-! ## Removal -/

/-- A removed node is gone, and all others forget it. -/
theorem node?_removeNode :
    (g.removeNode i).node? j =
      if j = i then none
      else
        match g.node? i with
        | none => g.node? j
        | some gone => (g.node? j).map (forget i gone j) := by
  unfold removeNode
  cases hi : g.node? i with
  | none =>
    by_cases hj : j = i
    · simp [hj, hi]
    · simp [hj]
  | some gone =>
    by_cases hj : j = i <;> simp [node?, IdMap.get?_map, IdMap.get?_erase, hj]

theorem mem_inputs_removeNode :
    j ∈ (g.removeNode i).inputs ↔ j ∈ g.inputs ∧ (g.contains i = true → j ≠ i) := by
  unfold removeNode
  cases hi : g.node? i <;> simp [contains_eq_isSome, hi]

theorem mem_outputs_removeNode :
    j ∈ (g.removeNode i).outputs ↔ j ∈ g.outputs ∧ (g.contains i = true → j ≠ i) := by
  unfold removeNode
  cases hi : g.node? i <;> simp [contains_eq_isSome, hi]

/-! ## Checks -/

/-- An edge is allowed between existing nodes, unless it leaves an output or enters an input. -/
theorem checkEdge_eq_ok_iff :
    g.checkEdge s t = .ok () ↔
      g.contains s = true ∧ g.contains t = true ∧ s ∉ g.outputs ∧ t ∉ g.inputs := by
  unfold checkEdge
  by_cases hs : g.contains s = true <;> by_cases ht : g.contains t = true <;>
    by_cases ho : s ∈ g.outputs <;> by_cases hi : t ∈ g.inputs <;>
    simp [hs, ht, ho, hi, isOutput, isInput]

end Wiring.Diagram
