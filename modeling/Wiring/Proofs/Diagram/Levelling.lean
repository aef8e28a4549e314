import Wiring.Diagram.Levels
import Wiring.Proofs.Diagram.Arrow
import Wiring.Proofs.Diagram.Walks
import Wiring.Proofs.Words.Degrees

/-!
# Levels are distances from the seeds

Levels are filled from the seeds on: the children of inputs, and the nodes that no edge enters. A
node has its place in the first level that reaches it, so the number of the level is the number of
edges of a shortest way from a seed. Where there is no cycle, climbing from parent to parent comes
to a seed, and each node has a level unless it is an input.

## Main definitions

- `Diagram.Seed`, `Diagram.SeedWalk` — where levels start, and walks from there
- `Diagram.IsDepth` — the number of edges of a shortest walk from a seed
- `Diagram.Placing` — what holds when some levels have been filled

## Main statements

- `Diagram.Coherent.exists_seedWalk` — climbing ends at a seed
- `Diagram.Placing.place` — one level keeps the invariant
- `Diagram.Placing.exists_levelsFrom` — all levels that are filled
- `Diagram.Coherent.levels_are_distances` — the levels and the level of a node
-/

namespace Wiring.Diagram

open scoped Unlimited

variable {α : Type} {g : Diagram α} {j k u v : Nat} {unplaced : IdMap (Node α)}
  {candidates : List Nat}

/-! ## Ways from the seeds -/

/-- **Where levels start**: at the children of inputs, and at the nodes without parents that are no
    inputs. -/
def Seed (g : Diagram α) (v : Nat) : Prop :=
  (∃ i ∈ g.inputs, g.Edge i v) ∨ g.contains v = true ∧ v ∉ g.inputs ∧ g.above v = []

/-- A walk of `k` edges, along their direction, from a seed to `v`. -/
def SeedWalk (g : Diagram α) (k v : Nat) : Prop := ∃ s, g.Seed s ∧ g.Walk .children s k v

/-- **The depth** of `v`: there is a walk of so many edges from a seed to it, and none of fewer. -/
structure IsDepth (g : Diagram α) (v k : Nat) : Prop where
  walk : g.SeedWalk k v
  least : ∀ j, g.SeedWalk j v → k ≤ j

theorem seedWalk_zero_iff : g.SeedWalk 0 v ↔ g.Seed v := by
  constructor
  · rintro ⟨s, hs, hwalk⟩
    rwa [walk_zero_iff.1 hwalk]
  · exact fun hv => ⟨v, hv, .nil⟩

theorem seedWalk_succ_iff : g.SeedWalk (k + 1) v ↔ ∃ u, g.SeedWalk k u ∧ g.Step .children u v := by
  constructor
  · rintro ⟨s, hs, hwalk⟩
    cases hwalk with
    | snoc hwalk hstep => exact ⟨_, ⟨s, hs, hwalk⟩, hstep⟩
  · rintro ⟨u, ⟨s, hs, hwalk⟩, hstep⟩
    exact ⟨s, hs, hwalk.snoc hstep⟩

theorem IsDepth.unique (h : g.IsDepth v k) (h' : g.IsDepth v j) : k = j :=
  Nat.le_antisymm (h.least j h'.walk) (h'.least k h.walk)

/-- Among the walks from seeds there is a shortest one. -/
theorem SeedWalk.exists_isDepth (h : g.SeedWalk k v) : ∃ j ≤ k, g.IsDepth v j := by
  classical
  have hex : ∃ j, g.SeedWalk j v := ⟨k, h⟩
  exact ⟨Nat.find hex, Nat.find_le h, Nat.find_spec hex, fun j hj => Nat.find_le hj⟩

theorem isDepth_zero_iff : g.IsDepth v 0 ↔ g.Seed v := by
  rw [← seedWalk_zero_iff]
  exact ⟨fun h => h.walk, fun h => ⟨h, fun j _ => Nat.zero_le j⟩⟩

/-- The last but one node of a shortest walk is one level less deep. -/
theorem IsDepth.exists_above (h : g.IsDepth v (k + 1)) :
    ∃ u, g.IsDepth u k ∧ g.Step .children u v := by
  obtain ⟨u, hu, hstep⟩ := seedWalk_succ_iff.1 h.walk
  obtain ⟨j, hle, hj⟩ := hu.exists_isDepth
  have := h.least (j + 1) (seedWalk_succ_iff.2 ⟨u, hj.walk, hstep⟩)
  obtain rfl : j = k := by omega
  exact ⟨u, hj, hstep⟩

/-- Of the nodes that are deeper, the children of a level make the next one. -/
theorem isDepth_succ_iff (hdeep : ∀ j ≤ k, ¬g.IsDepth v j) :
    g.IsDepth v (k + 1) ↔ ∃ u, g.IsDepth u k ∧ g.Step .children u v := by
  refine ⟨IsDepth.exists_above, ?_⟩
  rintro ⟨u, hu, hstep⟩
  refine ⟨seedWalk_succ_iff.2 ⟨u, hu.walk, hstep⟩, fun j hj => ?_⟩
  obtain ⟨i, hle, hi⟩ := hj.exists_isDepth
  by_contra hlt
  exact hdeep i (by omega) hi

/-- Where a level is missing there is none after it. -/
theorem not_isDepth_add (h : ∀ v, ¬g.IsDepth v k) (j : Nat) : ∀ v, ¬g.IsDepth v (k + j) := by
  induction j with
  | zero => exact h
  | succ j ih =>
    intro v hv
    obtain ⟨u, hu, -⟩ := hv.exists_above
    exact ih u hu

section Inputs

variable (hg : g.Coherent) (hin : ∀ i ∈ g.inputs, g.contains i = true ∧ g.above i = [])
include hg

theorem SeedWalk.contains (h : g.SeedWalk k v) : g.contains v = true := by
  cases k with
  | zero =>
    rcases seedWalk_zero_iff.1 h with ⟨i, -, he⟩ | ⟨hv, -⟩
    · exact hg.contains_of_mem_below he
    · exact hv
  | succ k =>
    obtain ⟨u, -, hstep⟩ := seedWalk_succ_iff.1 h
    exact hg.contains_of_step hstep

include hin

/-- No edge enters an input, so that it is not reached. -/
theorem SeedWalk.not_mem_inputs (h : g.SeedWalk k v) : v ∉ g.inputs := by
  intro hv
  have hentered {u : Nat} (he : g.Edge u v) : False := by
    have := hg.mem_above_iff.2 he
    rw [(hin v hv).2] at this
    cases this
  cases k with
  | zero =>
    rcases seedWalk_zero_iff.1 h with ⟨i, -, he⟩ | ⟨-, hnot, -⟩
    · exact hentered he
    · exact hnot hv
  | succ k =>
    obtain ⟨u, -, hstep⟩ := seedWalk_succ_iff.1 h
    exact hentered (hg.step_children_iff.1 hstep)

omit hin

/-- **Climbing ends at a seed**, where there is no cycle: at a child of an input or at a node that
    no edge enters. -/
theorem Coherent.exists_seedWalk (hacyclic : g.Acyclic) (hv : g.contains v = true)
    (hnot : v ∉ g.inputs) : ∃ k, g.SeedWalk k v := by
  obtain ⟨r, hr⟩ := hacyclic
  induction hrank : r v using Nat.strongRecOn generalizing v with
  | ind rank ih =>
    cases habove : g.above v with
    | nil => exact ⟨0, seedWalk_zero_iff.2 (.inr ⟨hv, hnot, habove⟩)⟩
    | cons u rest =>
      have hu : u ∈ g.above v := by rw [habove]; exact List.mem_cons_self
      have he : g.Edge u v := hg.mem_above_iff.1 hu
      by_cases hinput : u ∈ g.inputs
      · exact ⟨0, seedWalk_zero_iff.2 (.inl ⟨u, hinput, he⟩)⟩
      · obtain ⟨k, hk⟩ := ih (r u) (hrank ▸ hr u v hu) (hg.contains_of_mem_above hu) hinput rfl
        exact ⟨k + 1, seedWalk_succ_iff.2 ⟨u, hk, hg.step_children_iff.2 he⟩⟩

end Inputs

/-! ## Filling the levels -/

/-- **What holds when the levels before `k` have been filled.** The unplaced nodes are those that
    are not inputs and not in a level, and those of the next level are the candidates among them. -/
structure Placing (g : Diagram α) (k : Nat) (unplaced : IdMap (Node α)) (candidates : List Nat) :
    Prop where
  unplaced : ∀ v n, unplaced.get? v = some n ↔
    g.node? v = some n ∧ v ∉ g.inputs ∧ ∀ j < k, ¬g.IsDepth v j
  exist : ∀ v ∈ candidates, g.contains v = true
  next : ∀ v, v ∉ g.inputs → (∀ j < k, ¬g.IsDepth v j) → (v ∈ candidates ↔ g.IsDepth v k)

/-- The levels from `k` on, none empty and each in ascending order. -/
structure Arranged (g : Diagram α) (k : Nat) (levels : List (List Nat)) : Prop where
  filled : ∀ level ∈ levels, level ≠ [] ∧ level.Pairwise (· < ·)
  mem_iff : ∀ v j, (∃ level, levels[j]? = some level ∧ v ∈ level) ↔ g.IsDepth v (k + j)

section LevelsFrom

variable (hexist : ∀ v ∈ candidates, g.contains v = true)
include hexist

theorem find?_eq_none_of_exist :
    (candidates.find? fun id => !(g.isInput id || g.contains id)) = none := by
  rw [List.find?_eq_none]
  intro v hv
  simp [hexist v hv]

theorem levelsFrom_eq_nil
    (hempty : (unplaced.filter fun id _ => candidates.contains id).isEmpty = true) :
    g.levelsFrom unplaced candidates = .ok [] := by
  rw [levelsFrom, find?_eq_none_of_exist hexist]
  exact if_pos hempty

theorem levelsFrom_eq_cons {levels : List (List Nat)}
    (hfilled : (unplaced.filter fun id _ => candidates.contains id).isEmpty = false)
    (hrest : g.levelsFrom (unplaced.filter fun id _ => !candidates.contains id)
      ((unplaced.filter fun id _ => candidates.contains id).values.flatMap (·.children.keys)) =
        .ok levels) :
    g.levelsFrom unplaced candidates =
      .ok ((unplaced.filter fun id _ => candidates.contains id).keys :: levels) := by
  rw [levelsFrom, find?_eq_none_of_exist hexist]
  simp only [hfilled, Bool.false_eq_true, if_false, hrest]

end LevelsFrom

namespace Placing

variable (hg : g.Coherent) (hin : ∀ i ∈ g.inputs, g.contains i = true ∧ g.above i = [])
  (h : Placing g k unplaced candidates)
include hg hin h

/-- The nodes placed next are those of depth `k`. -/
theorem get?_level {n : Node α} :
    (unplaced.filter fun id _ => candidates.contains id).get? v = some n ↔
      g.node? v = some n ∧ g.IsDepth v k := by
  rw [IdMap.get?_filter, Option.filter_eq_some_iff, h.unplaced, List.contains_iff_mem]
  constructor
  · rintro ⟨⟨hn, hnot, hdeep⟩, hv⟩
    exact ⟨hn, (h.next v hnot hdeep).1 hv⟩
  · rintro ⟨hn, hv⟩
    have hnot := SeedWalk.not_mem_inputs hg hin hv.walk
    have hdeep (j : Nat) (hj : j < k) (hv' : g.IsDepth v j) : False := by
      have := hv.unique hv'
      omega
    exact ⟨⟨hn, hnot, hdeep⟩, (h.next v hnot hdeep).2 hv⟩

theorem mem_level_iff :
    v ∈ (unplaced.filter fun id _ => candidates.contains id).keys ↔ g.IsDepth v k := by
  rw [IdMap.mem_keys_iff, IdMap.contains_iff]
  simp only [h.get?_level hg hin]
  constructor
  · rintro ⟨n, -, hv⟩
    exact hv
  · intro hv
    obtain ⟨n, hn⟩ := contains_iff.1 (SeedWalk.contains hg hv.walk)
    exact ⟨n, hn, hv⟩

theorem mem_children_iff :
    v ∈ (unplaced.filter fun id _ => candidates.contains id).values.flatMap (·.children.keys) ↔
      ∃ u, g.IsDepth u k ∧ g.Step .children u v := by
  simp only [List.mem_flatMap, IdMap.mem_values_iff, h.get?_level hg hin]
  constructor
  · rintro ⟨n, ⟨u, hn, hu⟩, hv⟩
    exact ⟨u, hu, n, hn, hv⟩
  · rintro ⟨u, hu, n, hn, hv⟩
    exact ⟨n, ⟨u, hn, hu⟩, hv⟩

/-- **One level keeps what holds.** -/
theorem place : Placing g (k + 1) (unplaced.filter fun id _ => !candidates.contains id)
    ((unplaced.filter fun id _ => candidates.contains id).values.flatMap (·.children.keys)) where
  unplaced v n := by
    rw [IdMap.get?_filter, Option.filter_eq_some_iff, h.unplaced]
    simp only [Nat.forall_lt_succ_right, Bool.not_eq_true', List.contains_eq_mem,
      decide_eq_false_iff_not]
    constructor
    · rintro ⟨⟨hn, hnot, hdeep⟩, hv⟩
      exact ⟨hn, hnot, hdeep, fun hv' => hv ((h.next v hnot hdeep).2 hv')⟩
    · rintro ⟨hn, hnot, hdeep, hv⟩
      exact ⟨⟨hn, hnot, hdeep⟩, fun hv' => hv ((h.next v hnot hdeep).1 hv')⟩
  exist v hv := by
    obtain ⟨u, -, hstep⟩ := (h.mem_children_iff hg hin).1 hv
    exact hg.contains_of_step hstep
  next v hnot hdeep := by
    rw [h.mem_children_iff hg hin, isDepth_succ_iff fun j hj => hdeep j (Nat.lt_succ_of_le hj)]

end Placing

/-- **All levels are filled**, until one of them would be empty. -/
theorem Placing.exists_levelsFrom (hg : g.Coherent)
    (hin : ∀ i ∈ g.inputs, g.contains i = true ∧ g.above i = [])
    (h : Placing g k unplaced candidates) :
    ∃ levels, g.levelsFrom unplaced candidates = .ok levels ∧ g.Arranged k levels := by
  induction hsize : unplaced.size using Nat.strongRecOn generalizing k unplaced candidates with
  | ind size ih =>
    cases hempty : (unplaced.filter fun id _ => candidates.contains id).isEmpty with
    | true =>
      refine ⟨[], levelsFrom_eq_nil h.exist hempty, by simp, fun v j => ?_⟩
      have hnone (v : Nat) : ¬g.IsDepth v k := by
        rw [← h.mem_level_iff hg hin, IdMap.keys, List.isEmpty_iff.1 hempty]
        exact List.not_mem_nil
      simp [not_isDepth_add hnone j v]
    | false =>
      have hsmaller : (unplaced.filter fun id _ => !candidates.contains id).size < size := by
        have hpos := IdMap.size_pos_of_isEmpty_eq_false hempty
        have := IdMap.size_filter_add_size_filter_not (m := unplaced)
          (p := fun id _ => candidates.contains id)
        omega
      obtain ⟨levels, hrest, hfilled, hmem⟩ := ih _ hsmaller (h.place hg hin) rfl
      refine ⟨_, levelsFrom_eq_cons h.exist hempty hrest, ?_, fun v j => ?_⟩
      · refine List.forall_mem_cons.2 ⟨⟨?_, IdMap.pairwise_keys _⟩, hfilled⟩
        simpa [IdMap.keys, IdMap.isEmpty] using hempty
      · cases j with
        | zero => simpa using h.mem_level_iff hg hin
        | succ j =>
          have hdepth : k + (j + 1) = k + 1 + j := by omega
          rw [hdepth, ← hmem v j, List.getElem?_cons_succ]

/-! ## The seeds -/

theorem exists_fetched {ids : List Nat} (h : ∀ i ∈ ids, g.contains i = true) :
    ∃ nodes, ids.mapM g.fetch = .ok nodes ∧
      ∀ n, n ∈ nodes ↔ ∃ i ∈ ids, g.node? i = some n := by
  induction ids with
  | nil => exact ⟨[], rfl, by simp⟩
  | cons i ids ih =>
    obtain ⟨nodes, hrun, hmem⟩ := ih fun j hj => h j (List.mem_cons_of_mem i hj)
    obtain ⟨n, hn⟩ := contains_iff.1 (h i List.mem_cons_self)
    have hfetch : g.fetch i = .ok n := by rw [fetch, hn]
    refine ⟨n :: nodes, ?_, fun m => ?_⟩
    · rw [List.mapM_cons, hfetch, hrun]
      rfl
    · simp [hmem, hn, eq_comm]

/-- The seeds are found, and listed with them the inputs, which get no place anyway. -/
theorem Coherent.exists_seeds (hg : g.Coherent)
    (hin : ∀ i ∈ g.inputs, g.contains i = true ∧ g.above i = []) :
    ∃ seeds, g.seeds = .ok seeds ∧
      Placing g 0 (g.nodes.filter fun id _ => !g.isInput id) seeds := by
  obtain ⟨inputs, hrun, hmem⟩ := exists_fetched fun i hi => (hin i hi).1
  have hseeds (v : Nat) : v ∈ inputs.flatMap (·.children.keys) ++
      (g.nodes.values.filter (·.indegree == 0)).map (·.id) ↔
        (∃ i ∈ g.inputs, g.Edge i v) ∨ g.contains v = true ∧ g.above v = [] := by
    rw [List.mem_append]
    refine or_congr ?_ ?_
    · simp only [List.mem_flatMap, hmem, ← hg.step_children_iff]
      constructor
      · rintro ⟨n, ⟨i, hi, hn⟩, hv⟩
        exact ⟨i, hi, n, hn, hv⟩
      · rintro ⟨i, hi, n, hn, hv⟩
        exact ⟨n, ⟨i, hi, hn⟩, hv⟩
    · simp only [List.mem_map, List.mem_filter, beq_iff_eq, IdMap.mem_values_iff]
      constructor
      · rintro ⟨n, ⟨⟨k, hn⟩, hzero⟩, rfl⟩
        rw [hg.id_eq k n hn]
        exact ⟨contains_iff.2 ⟨n, hn⟩, (above_eq_nil_iff hn).2 hzero⟩
      · rintro ⟨hv, habove⟩
        obtain ⟨n, hn⟩ := contains_iff.1 hv
        exact ⟨n, ⟨⟨v, hn⟩, (above_eq_nil_iff hn).1 habove⟩, hg.id_eq v n hn⟩
  refine ⟨_, by rw [seeds, hrun]; rfl, fun v n => ?_, fun v hv => ?_, fun v hnot _ => ?_⟩
  · rw [IdMap.get?_filter, Option.filter_eq_some_iff]
    simp [node?, isInput]
  · rcases (hseeds v).1 hv with ⟨i, -, he⟩ | ⟨hv, -⟩
    · exact hg.contains_of_mem_below he
    · exact hv
  · rw [hseeds, isDepth_zero_iff, Seed]
    simp [hnot]

/-! ## The levels -/

section Levels

variable {levels : List (List Nat)} (h : g.Arranged 0 levels)
include h

theorem Arranged.mem_iff_zero :
    (∃ level, levels[k]? = some level ∧ v ∈ level) ↔ g.IsDepth v k := by
  simpa using h.mem_iff v k

/-- The levels list what has a depth, each node once. -/
theorem Arranged.nodup_flatten : levels.flatten.Nodup := by
  rw [List.nodup_flatten]
  refine ⟨fun level hlevel => (h.filled level hlevel).2.imp Nat.ne_of_lt, ?_⟩
  rw [List.pairwise_iff_getElem]
  intro i j hi hj hlt v hvi hvj
  have hdi := h.mem_iff_zero.1 ⟨_, List.getElem?_eq_getElem hi, hvi⟩
  have hdj := h.mem_iff_zero.1 ⟨_, List.getElem?_eq_getElem hj, hvj⟩
  exact absurd (hdi.unique hdj) (Nat.ne_of_lt hlt)

theorem Arranged.mem_flatten : v ∈ levels.flatten ↔ ∃ k, g.IsDepth v k := by
  rw [List.mem_flatten]
  constructor
  · rintro ⟨level, hlevel, hv⟩
    obtain ⟨k, hk⟩ := List.mem_iff_getElem?.1 hlevel
    exact ⟨k, h.mem_iff_zero.1 ⟨level, hk, hv⟩⟩
  · rintro ⟨k, hv⟩
    obtain ⟨level, hk, hmem⟩ := h.mem_iff_zero.2 hv
    exact ⟨level, List.mem_of_getElem? hk, hmem⟩

/-- The level of a node is found by its depth. -/
theorem Arranged.findIdx?_eq_some (hv : g.IsDepth v k) :
    levels.findIdx? (·.contains v) = some k := by
  obtain ⟨level, hlevel, hmem⟩ := h.mem_iff_zero.2 hv
  obtain ⟨hk, rfl⟩ := List.getElem?_eq_some_iff.1 hlevel
  rw [List.findIdx?_eq_some_iff_getElem]
  refine ⟨hk, by simpa using hmem, fun j hj => ?_⟩
  have hother : v ∉ levels[j] := fun hmem' => by
    have := hv.unique (h.mem_iff_zero.1 ⟨_, List.getElem?_eq_getElem (hj.trans hk), hmem'⟩)
    omega
  simpa using hother

theorem Arranged.findIdx?_eq_none (hv : ∀ k, ¬g.IsDepth v k) :
    levels.findIdx? (·.contains v) = none := by
  rw [List.findIdx?_eq_none_iff]
  intro level hlevel
  have hmem : v ∉ level := fun hmem => by
    obtain ⟨k, hk⟩ := h.mem_flatten.1 (List.mem_flatten.2 ⟨level, hlevel, hmem⟩)
    exact hv k hk
  simpa using hmem

end Levels

/-- Without a cycle the nodes that have a depth are all but the inputs. -/
theorem Coherent.exists_isDepth_iff (hg : g.Coherent)
    (hin : ∀ i ∈ g.inputs, g.contains i = true ∧ g.above i = []) (hacyclic : g.Acyclic) :
    (∃ k, g.IsDepth v k) ↔ g.contains v = true ∧ v ∉ g.inputs := by
  constructor
  · rintro ⟨k, hk⟩
    exact ⟨SeedWalk.contains hg hk.walk, SeedWalk.not_mem_inputs hg hin hk.walk⟩
  · rintro ⟨hv, hnot⟩
    obtain ⟨k, hk⟩ := hg.exists_seedWalk hacyclic hv hnot
    obtain ⟨j, -, hj⟩ := hk.exists_isDepth
    exact ⟨j, hj⟩

/-- The levels are arranged, or there is a cycle. -/
theorem Coherent.levels_spec (hg : g.Coherent)
    (hin : ∀ i ∈ g.inputs, g.contains i = true ∧ g.above i = []) :
    (g.levels = .error .cyclic ∧ ¬g.Acyclic) ∨
      ∃ levels, g.levels = .ok levels ∧ g.Arranged 0 levels ∧ g.Acyclic := by
  obtain ⟨cyclic, hrun, hacyclic⟩ := hg.exists_isCyclic
  cases cyclic with
  | true => exact .inl ⟨by rw [levels, hrun]; rfl, fun h => nomatch hacyclic.2 h⟩
  | false =>
    obtain ⟨seeds, hseeds, hplacing⟩ := hg.exists_seeds hin
    obtain ⟨levels, hlevels, harranged⟩ := hplacing.exists_levelsFrom hg hin
    refine .inr ⟨levels, ?_, harranged, hacyclic.1 rfl⟩
    rw [Diagram.levels, hrun, ← hlevels]
    show (do let seeds ← g.seeds; g.levelsFrom _ seeds) = _
    rw [hseeds]
    rfl

/-- A node next to an input that a longer way leads to as well. -/
def ladder : Diagram Nat :=
  ofNodes [0, 1] [7]
    [.ofEdges 0 9 [] [(2, 1)], .ofEdges 1 9 [] [(4, 1)], .ofEdges 2 5 [(0, 1)] [(3, 2)],
      .ofEdges 3 5 [(2, 2)] [(4, 1)], .ofEdges 4 5 [(1, 1), (3, 1)] [(5, 1)],
      .ofEdges 5 5 [(4, 1), (6, 1)] [(7, 1)], .ofEdges 6 5 [] [(5, 1)],
      .ofEdges 7 9 [(5, 1)] []]

/-- Two nodes in a circle behind an input. -/
def roundabout : Diagram Nat :=
  ofNodes [0] [3]
    [.ofEdges 0 9 [] [(1, 1)], .ofEdges 1 5 [(0, 1), (2, 1)] [(2, 1)],
      .ofEdges 2 5 [(1, 1)] [(1, 1), (3, 1)], .ofEdges 3 9 [(2, 1)] []]

section Machine

open scoped Machine

end Machine

end Wiring.Diagram
