import Wiring.Proofs.Diagram.Neighbours

/-!
# Dropping single edges

Dropping takes one of the parallel edges between two nodes away, at both of its ends.

## Main statements

- `Diagram.count_above_dropEdge`, `Diagram.count_below_dropEdge` — what is left of the edges
- `Diagram.Coherent.dropEdge` — the two ends still agree
-/

namespace Wiring

open scoped Unlimited

theorem Tally.Positive.decrement {t : Tally} (ht : t.Positive) (k : Nat) :
    (t.decrement k).Positive := by
  intro j d hj
  rw [Tally.decrement, IdMap.get?_alter] at hj
  split at hj
  · obtain ⟨m, hm, hdec⟩ := Option.bind_eq_some_iff.1 hj
    split at hdec
    · cases hdec
    · cases hdec
      omega
  · exact ht j d hj

namespace Diagram

variable {α : Type} {g : Diagram α} {i j k s t : Nat}

theorem contains_dropEdge : (g.dropEdge s t).contains k = g.contains k := by
  unfold dropEdge
  split
  · rw [contains_updateNode, contains_updateNode]
  · rfl

@[simp] theorem inputs_dropEdge : (g.dropEdge s t).inputs = g.inputs := by
  unfold dropEdge
  split <;> rfl

@[simp] theorem outputs_dropEdge : (g.dropEdge s t).outputs = g.outputs := by
  unfold dropEdge
  split <;> rfl

@[simp] theorem nextId_dropEdge : (g.dropEdge s t).nextId = g.nextId := by
  unfold dropEdge
  split <;> rfl

theorem dropEdge_eq_self (hst : ¬(g.contains s = true ∧ g.contains t = true)) :
    g.dropEdge s t = g := by
  rw [dropEdge, if_neg (by rwa [Bool.and_eq_true])]

theorem node?_dropEdge (hs : g.contains s = true) (ht : g.contains t = true) :
    (g.dropEdge s t).node? k = (g.node? k).map fun n =>
      let n := if k = s then n.dropChildEdge t else n
      if k = t then n.dropParentEdge s else n := by
  rw [dropEdge, hs, ht, Bool.and_self, if_pos rfl]
  simp only [node?_updateNode]
  by_cases ht : k = t
  · subst ht
    by_cases hs : k = s
    · subst hs
      simp [Function.comp_def]
    · simp [hs]
  · by_cases hs : k = s
    · subst hs
      simp [ht]
    · simp [ht, hs]

/-- One edge less from `s` to `t`, if there is one. -/
theorem count_above_dropEdge (hs : g.contains s = true) (ht : g.contains t = true) (u v : Nat) :
    ((g.dropEdge s t).above v).count u =
      (g.above v).count u - if u = s ∧ v = t then 1 else 0 := by
  rw [above, node?_dropEdge hs ht]
  cases hn : g.node? v with
  | none => simp [above, hn]
  | some n =>
    have hset : (if v = s then n.dropChildEdge t else n).parents = n.parents := by split <;> rfl
    rw [above_of_node? hn, Option.map_some, Option.elim_some]
    by_cases hv : v = t
    · rw [if_pos hv, Node.dropParentEdge, hset, Tally.count_spread, Tally.count_decrement,
        Tally.count_spread]
      simp [hv]
    · rw [if_neg hv, hset]
      simp [hv]

theorem count_below_dropEdge (hs : g.contains s = true) (ht : g.contains t = true) (u v : Nat) :
    ((g.dropEdge s t).below u).count v =
      (g.below u).count v - if u = s ∧ v = t then 1 else 0 := by
  rw [below, node?_dropEdge hs ht]
  cases hn : g.node? u with
  | none => simp [below, hn]
  | some n =>
    have hset (n : Node α) : (if u = t then n.dropParentEdge s else n).children = n.children := by
      split <;> rfl
    rw [below_of_node? hn, Option.map_some, Option.elim_some, hset]
    by_cases hu : u = s
    · simp [hu, Node.dropChildEdge, Tally.count_spread, Tally.count_decrement]
    · simp [hu]

theorem Coherent.dropEdge (hg : g.Coherent) (s t : Nat) : (g.dropEdge s t).Coherent := by
  by_cases hst : g.contains s = true ∧ g.contains t = true
  · obtain ⟨hs, ht⟩ := hst
    refine ⟨fun k n hn => ?_, fun k n hn => ?_, fun u v => ?_⟩
    · rw [node?_dropEdge hs ht] at hn
      obtain ⟨m, hm, rfl⟩ := Option.map_eq_some_iff.1 hn
      rw [← hg.id_eq k m hm]
      dsimp only
      split <;> split <;> rfl
    · rw [node?_dropEdge hs ht] at hn
      obtain ⟨m, hm, rfl⟩ := Option.map_eq_some_iff.1 hn
      obtain ⟨hp, hc⟩ := hg.positive k m hm
      dsimp only
      split <;> split
      · exact ⟨hp.decrement s, hc.decrement t⟩
      · exact ⟨hp.decrement s, hc⟩
      · exact ⟨hp, hc.decrement t⟩
      · exact ⟨hp, hc⟩
    · rw [count_above_dropEdge hs ht, count_below_dropEdge hs ht, hg.agree]
  · rwa [dropEdge_eq_self hst]

/-- Dropping an edge makes no new parents. -/
theorem mem_above_of_dropEdge (hi : i ∈ (g.dropEdge s t).above j) : i ∈ g.above j := by
  by_cases hst : g.contains s = true ∧ g.contains t = true
  · rw [← List.count_pos_iff, count_above_dropEdge hst.1 hst.2] at hi
    rw [← List.count_pos_iff]
    omega
  · rwa [dropEdge_eq_self hst] at hi

theorem mem_below_of_dropEdge (hi : i ∈ (g.dropEdge s t).below j) : i ∈ g.below j := by
  by_cases hst : g.contains s = true ∧ g.contains t = true
  · rw [← List.count_pos_iff, count_below_dropEdge hst.1 hst.2] at hi
    rw [← List.count_pos_iff]
    omega
  · rwa [dropEdge_eq_self hst] at hi

end Diagram

end Wiring
