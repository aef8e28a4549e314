import Wiring.Proofs.Diagram.Cycles
import Wiring.Proofs.Diagram.Uniting

/-!
# What the removal of many nodes leaves

Nodes that are removed one after the other might as well go at once: the edges between the others
stay, and the size goes down by one for each.

## Main statements

- `Diagram.removeNodes_append` — one list after the other
- `Diagram.Coherent.edges_removeNodes` — the multiplicities that are left
- `Diagram.size_removeNodes_add` — how many nodes are left
-/

namespace Wiring.Diagram

open scoped Unlimited

variable {α : Type} {g : Diagram α} {ids : List Nat} {i u v : Nat}

theorem removeNodes_append (ids others : List Nat) :
    g.removeNodes (ids ++ others) = (g.removeNodes ids).removeNodes others :=
  List.foldl_append

/-! ## Edges -/

theorem Coherent.edges_removeNodes (hg : g.Coherent) (ids : List Nat) (u v : Nat) :
    (g.removeNodes ids).edges u v = if u ∈ ids ∨ v ∈ ids then 0 else g.edges u v := by
  rw [edges, edges, hg.below_removeNodes]
  by_cases hu : u ∈ ids
  · simp [hu]
  · by_cases hv : v ∈ ids
    · simp [hu, hv, List.count_eq_zero]
    · rw [if_neg hu, if_neg (by simp [hu, hv]), List.count_filter (by simpa using hv)]

theorem Coherent.edge_removeNodes_iff (hg : g.Coherent) :
    (g.removeNodes ids).Edge u v ↔ g.Edge u v ∧ u ∉ ids ∧ v ∉ ids := by
  have hedges := hg.edges_removeNodes ids u v
  rw [Edge, Edge, ← List.count_pos_iff, ← List.count_pos_iff]
  change 0 < (g.removeNodes ids).edges u v ↔ 0 < g.edges u v ∧ _
  rw [hedges]
  by_cases hgone : u ∈ ids ∨ v ∈ ids
  · rw [if_pos hgone]
    exact ⟨fun h => absurd h (Nat.lt_irrefl 0), fun h => absurd hgone (not_or.2 h.2)⟩
  · rw [if_neg hgone]
    exact (and_iff_left (not_or.1 hgone)).symm

/-! ## Size -/

theorem size_removeNodes_add (hnodup : ids.Nodup) (h : ∀ i ∈ ids, g.contains i = true) :
    (g.removeNodes ids).size + ids.length = g.size := by
  induction ids generalizing g with
  | nil => rfl
  | cons i ids ih =>
    obtain ⟨hi, hnodup⟩ := List.nodup_cons.1 hnodup
    have hrest : ∀ j ∈ ids, (g.removeNode i).contains j = true := fun j hj =>
      contains_removeNode_iff.2 ⟨h j (List.mem_cons_of_mem _ hj), fun heq => hi (heq ▸ hj)⟩
    rw [removeNodes_cons, List.length_cons, ← Nat.add_assoc, ih hnodup hrest]
    exact size_removeNode_add_one (h i List.mem_cons_self)

end Wiring.Diagram
