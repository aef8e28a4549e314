import Wiring.Proofs.Diagram.Search

/-!
# Common ancestors

Two searches against the edges, one from each of two nodes, find their ancestors. A node is a strict
ancestor if it has been reached from somewhere, which the source of a search never is, even on a
cycle. What both searches have reached are the common ancestors.

## Main definitions

- `Diagram.CommonAncestor` — an inner node from which edges lead to two others

## Main statements

- `Diagram.Charts.get?_distances_iff` — a full chart notes down all distances
- `Diagram.exists_commonAncestors` — what is read off two trails
- `Diagram.Coherent.commonAncestors_exact` — common ancestors with their distances
-/

namespace Wiring.Diagram

open scoped Unlimited

variable {α : Type} {g : Diagram α} {d : Direction} {a b j k source v : Nat}
  {trail trailA trailB : Trail}

/-- **A common ancestor** of `a` and `b`: a node other than the two, and no terminal, from which
    edges lead to both. -/
structure CommonAncestor (g : Diagram α) (a b v : Nat) : Prop where
  contains : g.contains v = true
  inner : g.isTerminal v = false
  ne_left : v ≠ a
  ne_right : v ≠ b
  left : Relation.ReflTransGen g.Edge v a
  right : Relation.ReflTransGen g.Edge v b

namespace Charts

variable (h : Charts g d source none trail)
include h

/-- Without a target all distances are noted down. -/
theorem get?_distances_iff : trail.distances.get? v = some k ↔ g.IsDistance d source v k := by
  refine ⟨h.exact v k, fun hk => ?_⟩
  obtain ⟨k', hk'⟩ := IdMap.contains_iff.1 ((h.complete v (.inl rfl)).2 ⟨k, hk.walk⟩)
  rw [hk', (h.exact v k' hk').unique hk]

/-- The source is reached from nowhere, and every other node that has a distance from somewhere. -/
theorem reached_iff : trail.predecessors.contains v = true ∧ trail.distances.get? v = some k ↔
    v ≠ source ∧ g.IsDistance d source v k := by
  rw [h.predecessor, h.get?_distances_iff, and_assoc]
  refine and_congr_right fun _ => and_iff_right_of_imp fun hk => ?_
  exact IdMap.contains_iff.2 ⟨k, h.get?_distances_iff.2 hk⟩

end Charts

/-- **Common ancestors are read off two trails**: they are the nodes that have a predecessor on
    both, with what is noted down there, unless they are terminals. -/
theorem exists_commonAncestors (hrunA : g.distances a none .parents = .ok trailA)
    (hrunB : g.distances b none .parents = .ok trailB) :
    ∃ ancestors, g.commonAncestors a b = .ok ancestors ∧ ∀ v j k,
      ancestors.get? v = some (j, k) ↔ g.isTerminal v = false ∧
        (trailA.predecessors.contains v = true ∧ trailA.distances.get? v = some j) ∧
        trailB.predecessors.contains v = true ∧ trailB.distances.get? v = some k := by
  refine ⟨_, by rw [commonAncestors, hrunA, hrunB]; rfl, fun v j k => ?_⟩
  rw [IdMap.get?_filterMap]
  simp only [IdMap.contains, Trail.get?_predecessors, Trail.get?_distances]
  rcases trailA.get? v with _ | ⟨distanceA, _ | viaA⟩
  · simp
  · simp
  · rcases trailB.get? v with _ | ⟨distanceB, _ | viaB⟩
    · simp
    · simp
    · cases g.isTerminal v <;> simp

/-- **The common ancestors of two nodes are found, and no others**, in every coherent diagram,
    cyclic or not. Each is listed with its distances to the two. -/
theorem Coherent.commonAncestors_exact (hg : g.Coherent) (ha : g.contains a = true)
    (hb : g.contains b = true) :
    ∃ ancestors, g.commonAncestors a b = .ok ancestors ∧
      (∀ v, ancestors.contains v = true ↔ g.CommonAncestor a b v) ∧
      ∀ v j k, ancestors.get? v = some (j, k) →
        g.IsDistance .children v a j ∧ g.IsDistance .children v b k := by
  have hstay : ∀ u v, g.Step .parents u v → g.contains v = true := fun _ _ => hg.contains_of_step
  have hnone : ∀ t, (none : Option Nat) = some t → g.contains t = true := fun _ ht => nomatch ht
  obtain ⟨trailA, -, hrunA, hchartA, -⟩ := exists_distances hstay ha hnone
  obtain ⟨trailB, -, hrunB, hchartB, -⟩ := exists_distances hstay hb hnone
  obtain ⟨ancestors, hrun, hget⟩ := exists_commonAncestors hrunA hrunB
  have hnoted (v j k : Nat) : ancestors.get? v = some (j, k) ↔ g.isTerminal v = false ∧
      (v ≠ a ∧ g.IsDistance .children v a j) ∧ v ≠ b ∧ g.IsDistance .children v b k := by
    rw [hget, hchartA.reached_iff, hchartB.reached_iff, hg.isDistance_parents_iff,
      hg.isDistance_parents_iff]
  refine ⟨ancestors, hrun, fun v => ?_, fun v j k hv => ?_⟩
  · rw [IdMap.contains_iff]
    constructor
    · rintro ⟨⟨j, k⟩, hv⟩
      obtain ⟨hinner, ⟨hva, hj⟩, hvb, hk⟩ := (hnoted v j k).1 hv
      have hleft := hg.exists_walk_iff.1 ⟨j, hj.walk⟩
      obtain ⟨w, he, -⟩ := (Relation.ReflTransGen.cases_head hleft).resolve_left hva
      exact ⟨Diagram.contains_of_mem_below he, hinner, hva, hvb, hleft,
        hg.exists_walk_iff.1 ⟨k, hk.walk⟩⟩
    · rintro ⟨-, hinner, hva, hvb, hleft, hright⟩
      obtain ⟨_, hwalkA⟩ := hg.exists_walk_iff.2 hleft
      obtain ⟨_, hwalkB⟩ := hg.exists_walk_iff.2 hright
      obtain ⟨j, hj⟩ := hwalkA.exists_isDistance
      obtain ⟨k, hk⟩ := hwalkB.exists_isDistance
      exact ⟨(j, k), (hnoted v j k).2 ⟨hinner, ⟨hva, hj⟩, hvb, hk⟩⟩
  · obtain ⟨-, ⟨-, hj⟩, -, hk⟩ := (hnoted v j k).1 hv
    exact ⟨hj, hk⟩

/-- Three nodes on a cycle that an input leads to, a node after two of them, and a node before one
    of them that is its own parent. -/
theorem commonAncestors_exact_roundabout :
    let rows := [[0, 1, 0, 0, 0, 0], [0, 0, 1, 1, 0, 0], [1, 0, 0, 2, 0, 0], [0, 0, 0, 0, 0, 0],
      [0, 1, 0, 0, 0, 0], [0, 0, 1, 0, 0, 1]]
    let g : Diagram Nat := ((discrete 6).joinRows 0 rows).setInputs [4]
    g.Coherent ∧ g.contains 3 = true ∧ g.contains 0 = true ∧
      g.commonAncestors 3 0 = .ok (.ofList [(1, (1, 2)), (2, (1, 1)), (5, (2, 2))]) ∧
      g.commonAncestors 0 0 = .ok (.ofList [(1, (2, 2)), (2, (1, 1)), (5, (2, 2))]) ∧
      g.CommonAncestor 3 0 1 ∧ ¬g.CommonAncestor 3 0 4 ∧ ¬g.CommonAncestor 0 0 0 ∧
      g.IsDistance .children 1 3 1 ∧ g.IsDistance .children 1 0 2 := by
  intro rows g
  have hrows : ofAdjacency rows = .ok ((discrete 6 : Diagram Nat).joinRows 0 rows) := rfl
  have hg : g.Coherent :=
    let h := (Orderly.ofAdjacency hrows).coherent
    ⟨h.id_eq, h.positive, h.agree⟩
  have h0 : g.contains 0 = true := by decide +kernel
  have h3 : g.contains 3 = true := by decide +kernel
  have hrun : g.commonAncestors 3 0 =
      .ok (.ofList [(1, (1, 2)), (2, (1, 1)), (5, (2, 2))]) := by decide +kernel
  have hrun' : g.commonAncestors 0 0 =
      .ok (.ofList [(1, (2, 2)), (2, (1, 1)), (5, (2, 2))]) := by decide +kernel
  obtain ⟨ancestors, hanswer, hmem, hdistances⟩ := hg.commonAncestors_exact h3 h0
  obtain ⟨ancestors', hanswer', hmem', -⟩ := hg.commonAncestors_exact h0 h0
  obtain rfl := Except.ok.inj (hrun.symm.trans hanswer)
  obtain rfl := Except.ok.inj (hrun'.symm.trans hanswer')
  obtain ⟨hleft, hright⟩ := hdistances 1 1 2 (by decide)
  refine ⟨hg, h3, h0, hrun, hrun', (hmem 1).1 (by decide), ?_, ?_, hleft, hright⟩
  · rw [← hmem]
    decide
  · rw [← hmem']
    decide

end Wiring.Diagram
