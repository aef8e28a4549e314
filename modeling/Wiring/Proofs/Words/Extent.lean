import Mathlib.Algebra.BigOperators.Ring.Finset
import Wiring.Proofs.Circuit.Gluing
import Wiring.Proofs.Words.Evaluation
import Wiring.Proofs.Words.Footprint

/-!
# The extent of composites

How much room evaluation needs depends on the number of nodes and edge ends. A copy of a circuit has
as many as the circuit. Circuits side by side have as many as both of them, and circuits one after
the other not more, since the edges at the seam take the place of outputs and of the edges to them.

In a circuit that is to be evaluated an exclusive disjunction has a single result. The charge is
then not above four times the footprint, which is a better bound than the one for all circuits.

## Main statements

- `Circuit.IsCopy.extent_eq` — copies
- `Circuit.extent_unites`, `Circuit.extent_weld_le` — circuits put together
- `Circuit.extent_identity` — bare wires
- `Circuit.Lax.affords` — the room that sound circuits need
-/

namespace Wiring

open scoped Unlimited

namespace Circuit

open Diagram (Unites Welds endsAt mem_ids)

variable {f g h u : Circuit} {φ ψ : Nat → Nat} {ps : List Nat} {k : Nat}

theorem extent_eq_sum_ids (g : Circuit) : g.extent = ∑ k ∈ g.ids.toFinset, g.endsAt k := by
  rw [extent_eq_sum, Diagram.ids, List.sum_toFinset _ g.nodes.nodup_keys, IdMap.keys, IdMap.values,
    List.map_map, List.map_map]
  refine congrArg List.sum (List.map_congr_left fun e he => ?_)
  have hn : g.node? e.1 = some e.2 := IdMap.mem_entries_iff.1 he
  rw [Function.comp_apply, Function.comp_apply, endsAt, Diagram.length_above_of_node? hn,
    Diagram.length_below_of_node? hn]
  rfl

/-- **A copy is as large as the circuit.** -/
theorem IsCopy.extent_eq (hc : IsCopy φ ψ g h) : h.extent = g.extent := by
  have hids : h.ids.toFinset = g.ids.toFinset.image φ := by
    ext j
    simp only [Finset.mem_image, List.mem_toFinset, mem_ids]
    constructor
    · intro hj
      obtain ⟨k, rfl⟩ := hc.range j hj
      exact ⟨k, hc.contains k ▸ hj, rfl⟩
    · rintro ⟨k, hk, rfl⟩
      rwa [hc.contains]
  rw [extent_eq_sum_ids, extent_eq_sum_ids, hids,
    Finset.sum_image fun i _ j _ heq => hc.leftInverse.injective heq]
  refine Finset.sum_congr rfl fun k _ => ?_
  rw [endsAt, endsAt, hc.above, hc.below, List.length_map, List.length_map]

/-- **Circuits that share no id** are together as large as both of them. -/
theorem extent_unites (hu : Unites f g u) : u.extent = f.extent + g.extent := by
  have hids : u.ids.toFinset = f.ids.toFinset ∪ g.ids.toFinset := by
    ext k
    simp only [Finset.mem_union, List.mem_toFinset, mem_ids, hu.contains_iff]
  have hdisjoint : Disjoint f.ids.toFinset g.ids.toFinset := by
    rw [Finset.disjoint_left]
    intro k hf hg
    rw [List.mem_toFinset, mem_ids] at hf hg
    rw [hu.apart k hf] at hg
    cases hg
  rw [extent_eq_sum_ids, extent_eq_sum_ids, extent_eq_sum_ids, hids, Finset.sum_union hdisjoint]
  refine congrArg₂ _ (Finset.sum_congr rfl fun k hk => ?_) (Finset.sum_congr rfl fun k hk => ?_)
  · rw [List.mem_toFinset, mem_ids] at hk
    rw [endsAt, endsAt, hu.above_left hk, hu.below_left hk]
  · rw [List.mem_toFinset, mem_ids] at hk
    rw [endsAt, endsAt, hu.symm.above_left hk, hu.symm.below_left hk]

/-- **Gluing makes nothing larger**: where an input gets a parent, an output has gone. -/
theorem extent_weld_le (hw : Welds f ps g) : extent (f.weld ps g) ≤ f.extent + g.extent := by
  have hout : f.outputs.toFinset ⊆ f.ids.toFinset := fun k hk =>
    List.mem_toFinset.2 (mem_ids.2 (hw.contains_output (List.mem_toFinset.1 hk)))
  have hin : g.inputs.toFinset ⊆ g.ids.toFinset := fun k hk =>
    List.mem_toFinset.2 (mem_ids.2 (hw.inputs_right k (List.mem_toFinset.1 hk)).1)
  have hids : (f.weld ps g).ids.toFinset =
      (f.ids.toFinset \ f.outputs.toFinset) ∪ g.ids.toFinset := by
    ext k
    simp only [Finset.mem_union, Finset.mem_sdiff, List.mem_toFinset, mem_ids, hw.contains_weld]
  have hdisjoint : Disjoint (f.ids.toFinset \ f.outputs.toFinset) g.ids.toFinset := by
    rw [Finset.disjoint_left]
    intro k hf hg
    rw [Finset.mem_sdiff, List.mem_toFinset, mem_ids] at hf
    rw [List.mem_toFinset, mem_ids, hw.apart k hf.1] at hg
    cases hg
  -- each new edge along the seam is paid for by the output that goes there
  have hseam : g.inputs.toFinset.card = f.outputs.toFinset.card := by
    rw [List.toFinset_card_of_nodup hw.nodup_inputs, List.toFinset_card_of_nodup hw.nodup_outputs,
      ← hw.length_eq]
    simpa using (congrArg List.length hw.feed).symm
  have hleft : ∀ k ∈ f.ids.toFinset \ f.outputs.toFinset, endsAt (f.weld ps g) k = f.endsAt k := by
    intro k hk
    rw [Finset.mem_sdiff, List.mem_toFinset, List.mem_toFinset, mem_ids] at hk
    rw [endsAt, endsAt, (hw.above_left hk.1 hk.2).length_eq, hw.length_below_left hk.1 hk.2]
  have hright : ∀ k ∈ g.ids.toFinset,
      endsAt (f.weld ps g) k = g.endsAt k + if k ∈ g.inputs.toFinset then 1 else 0 := by
    intro k hk
    rw [List.mem_toFinset, mem_ids] at hk
    rw [endsAt, endsAt, (hw.below_right hk).length_eq]
    by_cases hki : k ∈ g.inputs
    · obtain ⟨p, hp⟩ := hw.exists_feeder hki
      rw [hw.above_input hp, (hw.inputs_right k hki).2, if_pos (List.mem_toFinset.2 hki)]
      simp only [List.length_singleton, List.length_nil]
      omega
    · rw [(hw.above_right hk hki).length_eq, if_neg (mt List.mem_toFinset.1 hki)]
  calc extent (f.weld ps g)
      = ∑ k ∈ f.ids.toFinset \ f.outputs.toFinset, endsAt (f.weld ps g) k +
          ∑ k ∈ g.ids.toFinset, endsAt (f.weld ps g) k := by
        rw [extent_eq_sum_ids, hids, Finset.sum_union hdisjoint]
    _ = ∑ k ∈ f.ids.toFinset \ f.outputs.toFinset, f.endsAt k +
          (g.extent + f.outputs.toFinset.card) := by
        rw [Finset.sum_congr rfl hleft, Finset.sum_congr rfl hright, Finset.sum_add_distrib,
          ← extent_eq_sum_ids, Finset.sum_ite_mem, Finset.inter_eq_right.2 hin,
          ← Finset.card_eq_sum_ones, hseam]
    _ ≤ ∑ k ∈ f.ids.toFinset \ f.outputs.toFinset, f.endsAt k +
          (g.extent + ∑ k ∈ f.outputs.toFinset, f.endsAt k) := by
        refine Nat.add_le_add_left (Nat.add_le_add_left ?_ _) _
        rw [Finset.card_eq_sum_ones]
        exact Finset.sum_le_sum fun k _ => Nat.le_add_left _ _
    _ = f.extent + g.extent := by
        rw [extent_eq_sum_ids f, ← Finset.sum_sdiff hout]
        omega

/-- Bare wires: two nodes each, with one edge. -/
theorem extent_identity (n : Nat) : extent (Diagram.identity n) = 4 * n := by
  induction n with
  | zero => rfl
  | succ n ih =>
    have hb := Diagram.beside_addWire (identity_spec n).1.idsBelow
    have hwire : extent (Diagram.wire (Diagram.identity n : Circuit).nextId) = 4 := rfl
    show extent (Diagram.identity n : Circuit).addWire = _
    rw [extent_unites hb.toUnites, ih, hwire, Nat.mul_succ]

/-! ## Sound circuits -/

theorem Lax.chargeAt_le (hg : g.Lax) (k : Nat) : g.chargeAt k ≤ 4 * g.endsAt k := by
  cases hl : g.label? k with
  | none =>
    rw [chargeAt_eq_zero hl]
    exact Nat.zero_le _
  | some label =>
    -- there are no more pairs of an argument and a result than there are arguments
    have hpairs : label = .xor → (g.above k).length * (g.below k).length ≤ (g.above k).length := by
      rintro rfl
      by_cases hin : k ∈ g.inputs
      · rw [(hg.input k hin).2.1, List.length_nil, Nat.zero_mul]
      · have hresult : (g.below k).length ≤ 1 := by
          by_cases hout : k ∈ g.outputs
          · rw [(hg.output k hout).2.1]
            exact Nat.zero_le _
          · exact hg.gate k _ hl hin hout
        exact (Nat.mul_le_mul_left _ hresult).trans (Nat.le_of_eq (Nat.mul_one _))
    rw [chargeAt_eq_charge hl, endsAt, Gate.charge]
    split <;> split <;> first
      | have := hpairs ‹_›; omega
      | omega

/-- **The charge of a circuit whose gates have their arity** is linear in its footprint. -/
theorem Lax.charge_le (hg : g.Lax) : g.charge ≤ 4 * g.footprint := by
  rw [charge, Diagram.footprint, Finset.mul_sum]
  exact Finset.sum_le_sum fun k _ => hg.chargeAt_le k

/-- **The room that such a circuit needs** to be evaluated. -/
theorem Lax.affords [Words] (hg : g.Lax) (hroom : Words.Holds (17 * g.footprint)) : g.Affords := by
  refine ⟨hg.coherent, hg.idsBelow, hroom.mono ?_⟩
  have hcharge := hg.charge_le
  have hnext := g.nextId_le_footprint
  rw [budget]
  omega

end Circuit

end Wiring
