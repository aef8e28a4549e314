import Wiring.Diagram.Adjacency
import Wiring.Proofs.Diagram.Merging

/-!
# Diagrams of matrices

The diagram of a matrix is made by joining: for every entry, as many edges as it says.

## Main definitions

- `Diagram.matrixEdges` — the edges of a matrix, one by one

## Main statements

- `Diagram.node?_discrete` — the nodes before there are edges
- `Diagram.joinRows_eq_joinAll` — the edges of all rows are joined
-/

namespace Wiring.Diagram

open scoped Unlimited

variable {α : Type} {i j k : Nat}

theorem node?_discrete [Inhabited α] {n : Nat} : (discrete n : Diagram α).node? k =
    if k < n then some (.isolated k default) else none := by
  have hsorted : ((List.range n).map fun i => (i, Node.isolated i (default : α))).Pairwise
      (fun e e' => e.1 < e'.1) := List.pairwise_map.2 List.pairwise_lt_range
  have hget {v : Node α} : (discrete n).node? k = some v ↔ k < n ∧ v = .isolated k default := by
    have hentries := IdMap.ofList_entries (m := ⟨_, hsorted⟩)
    show (IdMap.ofList _).get? k = some v ↔ _
    rw [hentries, ← IdMap.mem_entries_iff]
    simp [eq_comm]
  split
  · exact hget.2 ⟨‹_›, rfl⟩
  · cases hn : (discrete n : Diagram α).node? k with
    | none => rfl
    | some v => exact absurd (hget.1 hn).1 ‹_›

theorem contains_discrete [Inhabited α] {n : Nat} :
    (discrete n : Diagram α).contains k = true ↔ k < n := by
  rw [contains_eq_isSome, node?_discrete]
  split <;> simp [*]

@[simp] theorem above_discrete [Inhabited α] {n : Nat} : (discrete n : Diagram α).above k = [] := by
  rw [above, node?_discrete]
  split <;> rfl

@[simp] theorem below_discrete [Inhabited α] {n : Nat} : (discrete n : Diagram α).below k = [] := by
  rw [below, node?_discrete]
  split <;> rfl

/-- The edges of a row of a matrix, from the node `i` to the nodes from `j` on. -/
def rowEdges (i j : Nat) : List Nat → List (Nat × Nat)
  | [] => []
  | m :: row => List.replicate m (i, j) ++ rowEdges i (j + 1) row

/-- The edges of the rows of a matrix, which belong to the nodes from `i` on. -/
def matrixEdges (i : Nat) : List (List Nat) → List (Nat × Nat)
  | [] => []
  | row :: rows => rowEdges i 0 row ++ matrixEdges (i + 1) rows

theorem joinRow_eq_joinAll (g : Diagram α) (i j : Nat) (row : List Nat) :
    g.joinRow i j row = g.joinAll (rowEdges i j row) := by
  induction row generalizing g j with
  | nil => rfl
  | cons m row ih => rw [joinRow, ih, join_eq_joinAll, rowEdges, joinAll_append]

theorem joinRows_eq_joinAll (g : Diagram α) (i : Nat) (rows : List (List Nat)) :
    g.joinRows i rows = g.joinAll (matrixEdges i rows) := by
  induction rows generalizing g i with
  | nil => rfl
  | cons row rows ih => rw [joinRows, ih, joinRow_eq_joinAll, matrixEdges, joinAll_append]

theorem of_mem_rowEdges {e : Nat × Nat} {row : List Nat} (he : e ∈ rowEdges i j row) :
    e.1 = i ∧ e.2 < j + row.length := by
  induction row generalizing j with
  | nil => cases he
  | cons m row ih =>
    rw [List.length_cons]
    rcases List.mem_append.1 he with he | he
    · rw [List.eq_of_mem_replicate he]
      exact ⟨rfl, by omega⟩
    · have := ih he
      omega

theorem of_mem_matrixEdges {e : Nat × Nat} {n : Nat} {rows : List (List Nat)}
    (hrows : ∀ row ∈ rows, row.length = n) (he : e ∈ matrixEdges i rows) :
    e.1 < i + rows.length ∧ e.2 < n := by
  induction rows generalizing i with
  | nil => cases he
  | cons row rows ih =>
    rw [List.length_cons]
    rcases List.mem_append.1 he with he | he
    · obtain ⟨hs, ht⟩ := of_mem_rowEdges he
      have := hrows row List.mem_cons_self
      omega
    · have := ih (fun r hr => hrows r (List.mem_cons_of_mem _ hr)) he
      omega

end Wiring.Diagram
