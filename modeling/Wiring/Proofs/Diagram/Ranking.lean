import Mathlib.Data.Finset.Lattice.Fold
import Wiring.Proofs.Diagram.Severing
import Wiring.Proofs.Diagram.Stripping

/-!
# Acyclic diagrams that change

Fewer edges need no new ranks. A new node fits between its neighbours once all old ranks are
doubled, if its parents have smaller ranks than its children.

## Main statements

- `Diagram.Acyclic.of_subset` — fewer edges
- `Diagram.Acyclic.removeNode`, `Diagram.Acyclic.severAll` — the changes that take edges away
- `Diagram.Ranked.attachAll` — new nodes between old ones
-/

namespace Wiring.Diagram

open scoped Unlimited

variable {α : Type} {g h : Diagram α} {r : Nat → Nat} {i j c t : Nat} {label : α}
  {ends : List (List Nat × List Nat)}

theorem Ranked.of_subset (hr : g.Ranked r) (hsub : ∀ u v, u ∈ h.above v → u ∈ g.above v) :
    h.Ranked r :=
  fun u v hu => hr u v (hsub u v hu)

theorem Acyclic.of_subset (hg : g.Acyclic) (hsub : ∀ u v, u ∈ h.above v → u ∈ g.above v) :
    h.Acyclic := by
  obtain ⟨r, hr⟩ := hg
  exact ⟨r, hr.of_subset hsub⟩

/-- No node is its own parent. -/
theorem Acyclic.ne_of_mem_above (hg : g.Acyclic) (h : i ∈ g.above j) : i ≠ j := by
  obtain ⟨r, hr⟩ := hg
  rintro rfl
  exact Nat.lt_irrefl _ (hr i i h)

/-- No child of a node is its parent. -/
theorem Acyclic.not_mem_above (hg : g.Acyclic) (h : i ∈ g.above j) : j ∉ g.above i := by
  obtain ⟨r, hr⟩ := hg
  intro hj
  exact Nat.lt_asymm (hr i j h) (hr j i hj)

theorem Acyclic.relabel (hg : g.Acyclic) (i : Nat) (label : α) : (g.relabel i label).Acyclic :=
  hg.of_subset fun u v hu => by rwa [above_relabel] at hu

theorem mem_above_of_removeNode (hg : g.Coherent) (h : i ∈ (g.removeNode t).above j) :
    i ∈ g.above j := by
  rw [hg.above_removeNode] at h
  split at h
  · cases h
  · exact (List.mem_filter.1 h).1

theorem Acyclic.removeNode (h : g.Acyclic) (hg : g.Coherent) (i : Nat) :
    (g.removeNode i).Acyclic :=
  h.of_subset fun _ _ hu => mem_above_of_removeNode hg hu

/-- A child of a removed node is still there, and no input. -/
theorem child_removeNode (hg : g.Coherent) (h : g.Acyclic) (hin : ∀ i ∈ g.inputs, g.above i = [])
    (ht : t ∈ g.below i) :
    (g.removeNode i).contains t = true ∧ t ∉ (g.removeNode i).inputs := by
  have hi : i ∈ g.above t := hg.mem_above_iff.2 ht
  refine ⟨contains_removeNode_iff.2
    ⟨hg.contains_of_mem_below ht, (h.ne_of_mem_above hi).symm⟩, ?_⟩
  intro hmem
  rw [hin t (mem_inputs_removeNode.1 hmem).1] at hi
  cases hi

theorem mem_above_of_severAll (hg : g.Coherent) {pairs : List (Nat × Nat)}
    (h : i ∈ (g.severAll pairs).above j) : i ∈ g.above j := by
  rw [hg.above_severAll] at h
  exact (List.mem_filter.1 h).1

theorem Acyclic.severAll (h : g.Acyclic) (hg : g.Coherent) (pairs : List (Nat × Nat)) :
    (g.severAll pairs).Acyclic :=
  h.of_subset fun _ _ hu => mem_above_of_severAll hg hu

/-- New nodes may stand between nodes of smaller and nodes of larger rank. -/
theorem Ranked.attachAll (hr : g.Ranked r) (hg : g.Coherent) (hids : g.IdsBelow)
    (h : EndsIn ends g) (hbetween : ∀ e ∈ ends, ∀ p ∈ e.1, ∀ c ∈ e.2, r p < r c) :
    (g.attachAll label ends).Acyclic := by
  -- old nodes get odd ranks, and a new one the even rank right after its parents
  let late (j : Nat) := ((g.attachAll label ends).above j).toFinset.sup fun p => 2 * r p + 2
  let r' (j : Nat) := if j < g.nextId then 2 * r j + 1 else late j
  have hcoh : (g.attachAll label ends).Coherent := hg.attachAll hids h
  have hrange (j : Nat) (hj : (g.attachAll label ends).contains j = true) :
      j < g.nextId + ends.length := by
    have hbound : (g.attachAll label ends).IdsBelow := hids.attachAll
    have := hbound j hj
    rwa [nextId_attachAll] at this
  refine ⟨r', ?_⟩
  intro u v hu
  have hv := hrange v (contains_of_mem_above hu)
  have hcu := hrange u (hcoh.contains_of_mem_above hu)
  by_cases hvold : v < g.nextId
  · show r' u < if v < g.nextId then 2 * r v + 1 else late v
    rw [if_pos hvold]
    by_cases huold : u < g.nextId
    · have hgv : (g.attachAll label ends).contains v = _ := contains_attachAll
      rw [contains_of_mem_above hu, decide_eq_false (Nat.not_le_of_lt hvold), Bool.false_and,
        Bool.or_false] at hgv
      obtain ⟨new, hnew, -, hperm⟩ := above_attachAll label hids h hgv.symm
      have := hr u v ((List.mem_append.1 (hperm.mem_iff.1 hu)).resolve_right fun hmem => by
        have := hnew u hmem
        omega)
      show (if u < g.nextId then 2 * r u + 1 else late u) < 2 * r v + 1
      rw [if_pos huold]
      omega
    · -- the parents of a new parent of `v` rank below `v`
      obtain ⟨e, he, -, hup, hdown⟩ := attachAll_new label hids h (Nat.le_of_not_lt huold) hcu
      have hve : v ∈ e.2 := hdown.mem_iff.1 (hcoh.mem_above_iff.1 hu)
      have hlate : late u ≤ 2 * r v := by
        apply Finset.sup_le
        intro p hp
        have := hbetween e he p (hup.mem_iff.1 (List.mem_toFinset.1 hp)) v hve
        omega
      show (if u < g.nextId then 2 * r u + 1 else late u) < 2 * r v + 1
      rw [if_neg huold]
      omega
  · obtain ⟨e, he, -, hup, -⟩ := attachAll_new label hids h (Nat.le_of_not_lt hvold) hv
    have huold : u < g.nextId := hids u ((h e he).1 u (hup.mem_iff.1 hu))
    have hlate : 2 * r u + 2 ≤ late v :=
      Finset.le_sup (f := fun p => 2 * r p + 2) (List.mem_toFinset.2 hu)
    show (if u < g.nextId then 2 * r u + 1 else late u) <
      if v < g.nextId then 2 * r v + 1 else late v
    rw [if_pos huold, if_neg hvold]
    omega

end Wiring.Diagram
