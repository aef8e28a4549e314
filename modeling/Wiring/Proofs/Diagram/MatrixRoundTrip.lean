import Mathlib.Data.List.GetD
import Mathlib.Data.List.Sort
import Wiring.Proofs.Diagram.EdgeLists
import Wiring.Proofs.Diagram.Isomorphism
import Wiring.Proofs.Diagram.Validity

/-!
# Matrices and diagrams

The diagram of a square matrix has as many edges between any two of its nodes as the entry says, so
its own matrix is the one it was made from. The other way round only the edges of a diagram get into
its matrix. What comes back are its nodes, numbered in their order, with the edges among them.

## Main definitions

- `Diagram.entry` — the entry of a matrix, zero outside
- `Diagram.Depicts` — the diagram of a matrix
- `Diagram.skeleton` — a diagram without terminals and with default labels

## Main statements

- `Diagram.count_matrixEdges` — the edges of a matrix are counted by its entries
- `Diagram.exists_depicts` — square matrices have diagrams
- `Diagram.ofAdjacency_ragged` — others are refused
- `Diagram.Depicts.renames_skeleton` — what the matrix of a diagram keeps
- `Diagram.adjacency_round_trip` — from matrices to diagrams and back, and the other way round
-/

namespace Wiring.Diagram

open scoped Unlimited

/-! ## Entries -/

/-- The entry of a matrix in row `i` and column `j`. Outside the matrix it is zero. -/
def entry (rows : List (List Nat)) (i j : Nat) : Nat := (rows.getD i []).getD j 0

section Entries

variable {i j u v : Nat} {row : List Nat} {rows : List (List Nat)}

theorem holds_entry [Words] (hheld : ∀ row ∈ rows, ∀ m ∈ row, Words.Holds m) (i j : Nat) :
    Words.Holds (entry rows i j) := by
  rw [entry, List.getD_eq_getElem?_getD, List.getD_eq_getElem?_getD]
  cases hi : rows[i]? with
  | none => exact .zero
  | some row =>
    rw [Option.getD_some]
    cases hj : row[j]? with
    | none => exact .zero
    | some m => exact hheld row (List.mem_of_getElem? hi) m (List.mem_of_getElem? hj)

theorem count_rowEdges : (rowEdges i j row).count (u, v) =
    if u = i ∧ j ≤ v then row.getD (v - j) 0 else 0 := by
  induction row generalizing j with
  | nil => simp [rowEdges]
  | cons m row ih =>
    rw [rowEdges, List.count_append, List.count_replicate, ih]
    by_cases hu : u = i
    · rcases Nat.lt_trichotomy v j with hv | rfl | hv
      · simp [hu, Nat.ne_of_gt hv, Nat.not_le.2 hv, Nat.not_le.2 (Nat.lt_succ_of_lt hv)]
      · simp [hu]
      · have hother : ((i, j) == (u, v)) = false := by simp [Nat.ne_of_lt hv]
        have hnext : v - j = v - (j + 1) + 1 := by omega
        rw [hother, if_neg Bool.false_ne_true, Nat.zero_add, if_pos ⟨hu, hv⟩,
          if_pos ⟨hu, Nat.le_of_lt hv⟩, hnext, List.getD_cons_succ]
    · simp [hu, Ne.symm hu]

/-- **The edges of a matrix are counted by its entries.** -/
theorem count_matrixEdges : (matrixEdges i rows).count (u, v) =
    if i ≤ u then entry rows (u - i) v else 0 := by
  induction rows generalizing i with
  | nil => simp [matrixEdges, entry]
  | cons row rows ih =>
    rw [matrixEdges, List.count_append, count_rowEdges, ih]
    rcases Nat.lt_trichotomy u i with hu | rfl | hu
    · simp [Nat.ne_of_lt hu, Nat.not_le.2 hu, Nat.not_le.2 (Nat.lt_succ_of_lt hu)]
    · simp [entry]
    · have hnext : u - i = u - (i + 1) + 1 := by omega
      rw [if_neg fun h => Nat.ne_of_gt hu h.1, Nat.zero_add, if_pos (Nat.succ_le_of_lt hu),
        if_pos (Nat.le_of_lt hu), entry, entry, hnext, List.getD_cons_succ]

/-- A square matrix is the table of its entries. -/
theorem map_range_entry (hsquare : ∀ row ∈ rows, row.length = rows.length) :
    ((List.range rows.length).map fun i => (List.range rows.length).map (entry rows i)) = rows := by
  refine List.ext_getElem (by simp) fun i _ hi => ?_
  rw [List.getElem_map, List.getElem_range]
  refine List.ext_getElem (by simp [hsquare _ (List.getElem_mem hi)]) fun j _ hj => ?_
  rw [List.getElem_map, List.getElem_range, entry, List.getD_eq_getElem _ _ hi,
    List.getD_eq_getElem _ _ hj]

end Entries

/-! ## Matrices of diagrams -/

section Matrices

variable {α : Type} {g h : Diagram α} {u v : Nat} {rows : List (List Nat)}

/-- The matrix counts the edges between any two nodes. -/
theorem adjacency_eq (g : Diagram α) :
    g.adjacency = g.ids.map fun u => g.ids.map fun v => g.edges u v := by
  have hrow (e : Nat × Node α) (he : e ∈ g.nodes.entries) :
      g.ids.map e.2.children.count = g.ids.map fun v => g.edges e.1 v := by
    have hnode : g.node? e.1 = some e.2 := IdMap.mem_entries_iff.1 he
    refine List.map_congr_left fun v _ => ?_
    rw [edges, below_of_node? hnode, Tally.count_spread]
  calc g.adjacency = g.nodes.entries.map fun e => g.ids.map e.2.children.count := List.map_map
    _ = g.nodes.entries.map fun e => g.ids.map fun v => g.edges e.1 v := List.map_congr_left hrow
    _ = (g.nodes.entries.map (·.1)).map fun u => g.ids.map fun v => g.edges u v := by
        rw [List.map_map]
        rfl

/-- Among ids in order the places of two are in the order of the ids. -/
theorem idxOf_lt_idxOf_iff (hu : g.contains u = true) (hv : g.contains v = true) :
    g.ids.idxOf u < g.ids.idxOf v ↔ u < v := by
  have hup {u v : Nat} (hu : g.contains u = true) (hv : g.contains v = true)
      (hlt : g.ids.idxOf u < g.ids.idxOf v) : u < v := by
    have hplace := List.pairwise_iff_getElem.1 g.nodes.pairwise_keys _ _
      (List.idxOf_lt_length_iff.2 (mem_ids.2 hu)) (List.idxOf_lt_length_iff.2 (mem_ids.2 hv)) hlt
    rwa [List.getElem_idxOf, List.getElem_idxOf] at hplace
  refine ⟨hup hu hv, fun hlt => ?_⟩
  rcases Nat.lt_trichotomy (g.ids.idxOf u) (g.ids.idxOf v) with h | h | h
  · exact h
  · exact absurd (List.idxOf_inj (mem_ids.2 hu) |>.1 h) (Nat.ne_of_lt hlt)
  · exact absurd (hup hv hu h) (Nat.lt_asymm hlt)

/-- Ids are found in the matrix at their places. -/
theorem entry_adjacency (hu : g.contains u = true) (hv : g.contains v = true) :
    entry g.adjacency (g.ids.idxOf u) (g.ids.idxOf v) = g.edges u v := by
  have hget {β : Type} (f : Nat → β) (d : β) {k : Nat} (hk : g.contains k = true) :
      (g.ids.map f).getD (g.ids.idxOf k) d = f k := by
    have hlt := List.idxOf_lt_length_iff.2 (mem_ids.2 hk)
    rw [List.getD_eq_getElem _ _ (by rwa [List.length_map]), List.getElem_map, List.getElem_idxOf]
  rw [entry, adjacency_eq, hget _ _ hu, hget _ _ hv]

theorem length_adjacency (g : Diagram α) : g.adjacency.length = g.size := by
  rw [adjacency_eq, List.length_map]
  exact IdMap.length_keys _

theorem length_of_mem_adjacency {row : List Nat} (hrow : row ∈ g.adjacency) :
    row.length = g.adjacency.length := by
  rw [length_adjacency]
  rw [adjacency_eq] at hrow
  obtain ⟨u, -, rfl⟩ := List.mem_map.1 hrow
  rw [List.length_map]
  exact IdMap.length_keys _

end Matrices

/-! ## Diagrams of matrices -/

section Diagrams

variable {α : Type} [Inhabited α] {g h : Diagram α} {k u v : Nat} {rows : List (List Nat)}

/-- **The diagram of a matrix**: nodes with default labels, numbered from 0 on, between which there
    are as many edges as the entries say. -/
structure Depicts (rows : List (List Nat)) (g : Diagram α) : Prop where
  orderly : g.Orderly
  contains_iff : ∀ k, g.contains k = true ↔ k < rows.length
  label?_eq : ∀ k, k < rows.length → g.label? k = some default
  edges_eq : ∀ u v, g.edges u v = entry rows u v
  inputs_eq : g.inputs = []
  outputs_eq : g.outputs = []
  nextId_eq : g.nextId = rows.length

/-- **Square matrices have diagrams.** -/
theorem exists_depicts (α : Type) [Inhabited α] (hsquare : ∀ row ∈ rows, row.length = rows.length) :
    ∃ g : Diagram α, ofAdjacency rows = .ok g ∧ Depicts rows g := by
  have hrun : ofAdjacency rows = .ok ((discrete rows.length : Diagram α).joinRows 0 rows) := by
    rw [ofAdjacency, List.find?_eq_none.2 (by simpa using hsquare)]
  refine ⟨_, hrun, ⟨.ofAdjacency hrun, fun k => ?_, fun k hk => ?_, fun u v => ?_, ?_, ?_, ?_⟩⟩
  all_goals rw [joinRows_eq_joinAll]
  · rw [contains_joinAll, contains_discrete]
  · rw [label?_joinAll, label?, node?_discrete, if_pos hk]
    rfl
  · have hsources : ∀ e ∈ matrixEdges 0 rows,
        (discrete rows.length : Diagram α).contains e.1 = true := fun e he => by
      have := of_mem_matrixEdges hsquare he
      exact contains_discrete.2 (by omega)
    rw [edges_joinAll hsources, edges, below_discrete, List.count_nil, Nat.zero_add,
      count_matrixEdges, if_pos (Nat.zero_le u)]
    rfl
  · exact inputs_joinAll _
  · exact outputs_joinAll _
  · exact nextId_joinAll _

/-- The edges are as many as the entries say, so that words hold what is counted. -/
theorem Depicts.countsHold [Words] (hg : Depicts rows g)
    (hheld : ∀ row ∈ rows, ∀ m ∈ row, Words.Holds m) (b : Nat) : CountsHold b g := by
  have hentry (u v : Nat) : Words.Holds (g.edges u v) := by
    rw [hg.edges_eq]
    exact holds_entry hheld u v
  exact fun u v =>
    ⟨fun _ => hentry u v, fun _ => hg.orderly.coherent.edges_eq_above u v ▸ hentry u v⟩

/-- **Square matrices have diagrams within words** that hold their entries. -/
theorem exists_depicts_within [Words] (α : Type) [Inhabited α]
    (hsquare : ∀ row ∈ rows, row.length = rows.length)
    (hheld : ∀ row ∈ rows, ∀ m ∈ row, Words.Holds m) :
    ∃ g : Diagram α, ofAdjacency rows = .ok g ∧ Depicts rows g := by
  obtain ⟨g, hrun, hg⟩ := exists_depicts α hsquare
  refine ⟨g, ?_, hg⟩
  rw [ofAdjacency_eq, hrun]
  intro h hh
  rw [hrun, Except.ok.injEq] at hh
  exact hh ▸ hg.countsHold hheld

/-- **Others are refused**, with the length of the first row that does not fit. -/
theorem ofAdjacency_ragged [Words] (hragged : ∃ row ∈ rows, row.length ≠ rows.length) :
    ∃ before row after, rows = before ++ row :: after ∧
      (∀ r ∈ before, r.length = rows.length) ∧ row.length ≠ rows.length ∧
      (ofAdjacency rows : Except Fault (Diagram α)) = .error (.arity rows.length row.length) := by
  obtain ⟨row, hfind⟩ : ∃ row, rows.find? (·.length != rows.length) = some row := by
    rw [← Option.isSome_iff_exists, List.find?_isSome]
    simpa using hragged
  obtain ⟨hrow, before, after, hsplit, hbefore⟩ := List.find?_eq_some_iff_append.1 hfind
  refine ⟨before, row, after, hsplit, by simpa using hbefore, by simpa using hrow, ?_⟩
  rw [ofAdjacency, hfind]

namespace Depicts

variable (hg : Depicts rows g)
include hg

theorem ids_eq : g.ids = List.range rows.length :=
  (IdMap.pairwise_keys _).eq_of_mem_iff List.pairwise_lt_range fun k =>
    mem_ids.trans ((hg.contains_iff k).trans List.mem_range.symm)

/-- The matrix of the diagram of a square matrix is that matrix. -/
theorem adjacency_eq (hsquare : ∀ row ∈ rows, row.length = rows.length) : g.adjacency = rows := by
  simp only [Diagram.adjacency_eq, hg.ids_eq, hg.edges_eq]
  exact map_range_entry hsquare

theorem isWellFormed [Words] : g.isWellFormed = true := by
  refine isWellFormed_iff_sealed.2 ⟨?_, ?_, hg.orderly.coherent.sealed⟩
  · rw [hg.inputs_eq]
    exact fun _ hi => nomatch hi
  · rw [hg.outputs_eq]
    exact fun _ ho => nomatch ho

end Depicts

/-! ## Diagrams of matrices of diagrams -/

/-- **The diagram without its terminals and labels**: every node has the default label. -/
def skeleton (g : Diagram α) : Diagram α :=
  { nodes := g.nodes.map fun _ n => n.relabel default
    inputs := []
    outputs := []
    nextId := g.nextId }

theorem node?_skeleton : g.skeleton.node? k = (g.node? k).map (·.relabel default) := IdMap.get?_map

@[simp] theorem contains_skeleton : g.skeleton.contains k = g.contains k := by
  rw [contains_eq_isSome, node?_skeleton, Option.isSome_map, contains_eq_isSome]

theorem label?_skeleton (hk : g.contains k = true) : g.skeleton.label? k = some default := by
  obtain ⟨n, hn⟩ := contains_iff.1 hk
  rw [label?, node?_skeleton, hn]
  rfl

@[simp] theorem above_skeleton : g.skeleton.above k = g.above k := by
  rw [above, node?_skeleton, above]
  cases g.node? k <;> rfl

@[simp] theorem below_skeleton : g.skeleton.below k = g.below k := by
  rw [below, node?_skeleton, below]
  cases g.node? k <;> rfl

theorem Coherent.skeleton (hg : g.Coherent) : g.skeleton.Coherent where
  id_eq k n hn := by
    rw [node?_skeleton] at hn
    obtain ⟨m, hm, rfl⟩ := Option.map_eq_some_iff.1 hn
    exact hg.id_eq k m hm
  positive k n hn := by
    rw [node?_skeleton] at hn
    obtain ⟨m, hm, rfl⟩ := Option.map_eq_some_iff.1 hn
    exact hg.positive k m hm
  agree u v := by
    rw [above_skeleton, below_skeleton]
    exact hg.agree u v

/-- **What the matrix of a diagram keeps** is its skeleton: every id is replaced by its place among
    the ids. -/
theorem Depicts.renames_skeleton (hh : Depicts g.adjacency h) (hg : g.Coherent) :
    Renames g.ids.idxOf g.skeleton h := by
  have hplace {k : Nat} (hk : g.contains k = true) : g.ids.idxOf k < g.adjacency.length := by
    rw [length_adjacency, size, ← IdMap.length_keys]
    exact List.idxOf_lt_length_iff.2 (mem_ids.2 hk)
  refine renames_of_edges hg.skeleton hh.orderly.coherent ⟨fun k hk => ?_, fun k hk l _ heq => ?_,
    fun i hi => ?_⟩ (fun k hk => ?_) (fun u v hu hv => ?_) hh.inputs_eq hh.outputs_eq
  · exact (hh.contains_iff _).2 (hplace (contains_skeleton.symm.trans hk))
  · exact (List.idxOf_inj (mem_ids.2 (contains_skeleton.symm.trans hk))).1 heq
  · have hlt : i < g.ids.length := by
      have := (hh.contains_iff i).1 hi
      rwa [length_adjacency, size, ← IdMap.length_keys] at this
    refine ⟨g.ids[i], ?_, g.nodes.nodup_keys.idxOf_getElem i hlt⟩
    exact contains_skeleton.trans (mem_ids.1 (List.getElem_mem hlt))
  · rw [contains_skeleton] at hk
    rw [label?_skeleton hk, hh.label?_eq _ (hplace hk)]
  · rw [contains_skeleton] at hu hv
    rw [hh.edges_eq, entry_adjacency hu hv, edges, edges, below_skeleton]

/-- **Matrices and diagrams go back and forth.** A square matrix is the matrix of its diagram, whose
    nodes are numbered from 0 on and which is well-formed and counts no edge zero times. Any other
    matrix is refused, because of the first row that does not fit. And the matrix of a coherent
    diagram has a diagram, which is its skeleton with the nodes numbered in their order. The entries
    are numbers that words hold. -/
theorem adjacency_round_trip [Words] (rows : List (List Nat)) (g : Diagram α) :
    ((∀ row ∈ rows, row.length = rows.length) → (∀ row ∈ rows, ∀ m ∈ row, Words.Holds m) →
      ∃ h : Diagram α, ofAdjacency rows = .ok h ∧
      h.isWellFormed = true ∧ h.Positive ∧ h.ids = List.range rows.length ∧ h.adjacency = rows) ∧
    ((∃ row ∈ rows, row.length ≠ rows.length) → ∃ before row after,
      rows = before ++ row :: after ∧ (∀ r ∈ before, r.length = rows.length) ∧
      row.length ≠ rows.length ∧
      (ofAdjacency rows : Except Fault (Diagram α)) = .error (.arity rows.length row.length)) ∧
    (g.Coherent → (∀ u v, Words.Holds (g.edges u v)) →
      ∃ h : Diagram α, ofAdjacency g.adjacency = .ok h ∧ h.Coherent ∧
      h.ids = List.range g.size ∧ Renames g.ids.idxOf g.skeleton h ∧
      ∀ u v, g.contains u = true → g.contains v = true →
        (g.ids.idxOf u < g.ids.idxOf v ↔ u < v)) := by
  refine ⟨fun hsquare hheld => ?_, ofAdjacency_ragged, fun hg hheld => ?_⟩
  · obtain ⟨h, hrun, hh⟩ := exists_depicts_within α hsquare hheld
    exact ⟨h, hrun, hh.isWellFormed, hh.orderly.coherent.positive, hh.ids_eq,
      hh.adjacency_eq hsquare⟩
  · obtain ⟨h, hrun, hh⟩ := exists_depicts_within α (fun row => length_of_mem_adjacency (g := g))
      fun row hrow m hm => by
        rw [adjacency_eq] at hrow
        obtain ⟨u, -, rfl⟩ := List.mem_map.1 hrow
        obtain ⟨v, -, rfl⟩ := List.mem_map.1 hm
        exact hheld u v
    refine ⟨h, hrun, hh.orderly.coherent, ?_, hh.renames_skeleton hg,
      fun u v => idxOf_lt_idxOf_iff⟩
    rw [hh.ids_eq, length_adjacency]

section Machine

open scoped Machine

/-- Two nodes are left of four, one of them with a loop and one with three, and neither keeps its
    place. Of three rows the second is too short and the last one shorter. -/
theorem adjacency_round_trip_gaps :
    let rows := [[0, 1, 0, 0], [0, 1, 0, 2], [0, 0, 0, 0], [0, 0, 1, 3]]
    let square := [[1, 2], [0, 3]]
    let ragged := [[0, 1, 2], [3, 4], [5]]
    let g : Diagram Nat := (((discrete 4).joinRows 0 rows).removeNodes [0, 2]).relabel 1 5
    g.Coherent ∧ g.ids = [1, 3] ∧ g.adjacency = square ∧
      (∃ h : Diagram Nat, ofAdjacency square = .ok h ∧ h.isWellFormed = true ∧ h.Positive ∧
        h.ids = [0, 1] ∧ h.adjacency = square ∧ Renames g.ids.idxOf g.skeleton h) ∧
      ∃ before row after, ragged = before ++ row :: after ∧ row.length ≠ 3 ∧
        (ofAdjacency ragged : Except Fault (Diagram Nat)) = .error (.arity 3 row.length) := by
  intro rows square ragged g
  have hg : g.Coherent := by decide +kernel
  have hedges (u v : Nat) : Words.Holds (g.edges u v) := by
    have hdegrees : g.DegreesHold := by decide +kernel
    exact (hdegrees.holds u).2.mono List.count_le_length
  have hmatrix : g.adjacency = square := by decide +kernel
  obtain ⟨hthere, -, hback⟩ := adjacency_round_trip square g
  obtain ⟨h, hrun, hwell, hpositive, hids, hadjacency⟩ := hthere (by decide) (by decide)
  obtain ⟨h', hrun', -, -, hrenames, -⟩ := hback hg hedges
  rw [hmatrix, hrun] at hrun'
  obtain rfl : h = h' := Except.ok.inj hrun'
  obtain ⟨-, hrefused, -⟩ := adjacency_round_trip ragged g
  obtain ⟨before, row, after, hsplit, -, hrow, herror⟩ := hrefused (by decide)
  exact ⟨hg, by decide +kernel, hmatrix, ⟨h, hrun, hwell, hpositive, hids, hadjacency, hrenames⟩,
    before, row, after, hsplit, hrow, herror⟩

end Machine

end Diagrams

end Wiring.Diagram
