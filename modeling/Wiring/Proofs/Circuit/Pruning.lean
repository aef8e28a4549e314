import Wiring.Diagram.DeadEnds
import Wiring.Proofs.Circuit.Reduction
import Wiring.Proofs.Diagram.Amounts

/-!
# Pruning

Removing a childless node that is no output only shortens lists of children. So a lax circuit stays
lax, and no value changes; when no such node is left the circuit is tight.

## Main definitions

- `Circuit.IsDeadEnd` — a childless node that is no output

## Main statements

- `Circuit.IsDeadEnd.reduces` — removing a dead end reduces
- `Circuit.Lax.prune_spec` — pruning reduces, and leaves no dead ends
-/

namespace Wiring

open scoped Unlimited

/-- A gate may have fewer results than it has. -/
theorem Gate.Allows.mono {gate : Gate} {ins outs outs' : Nat} (h : gate.Allows ins outs)
    (hle : outs' ≤ outs) : gate.Allows ins outs' := by
  cases gate with
  | copy => exact h
  | not => exact ⟨h.1, hle.trans h.2⟩
  | and => exact Nat.le_trans hle h
  | or => exact Nat.le_trans hle h
  | xor => exact Nat.le_trans hle h
  | const v => trivial
  | free name => exact h

theorem Gate.weight_mono (gate : Gate) (ins : Nat) {outs outs' : Nat} (h : outs' ≤ outs) :
    gate.weight ins outs' ≤ gate.weight ins outs := by
  unfold Gate.weight
  split <;> omega

namespace Circuit

variable {g h : Circuit} {d k : Nat}

/-- The node `d` has no children and is no output. -/
structure IsDeadEnd (g : Circuit) (d : Nat) : Prop where
  contains : g.contains d = true
  below : g.below d = []
  notOutput : d ∉ g.outputs

theorem Lax.length_below_removeNode_le (hg : g.Lax) (d k : Nat) :
    ((g.removeNode d).below k).length ≤ (g.below k).length := by
  rw [hg.coherent.below_removeNode]
  split
  · exact Nat.zero_le _
  · exact List.length_filter_le _ _

theorem label?_of_removeNode {label : Gate} (hl : (g.removeNode d).label? k = some label) :
    k ≠ d ∧ g.label? k = some label := by
  rw [Diagram.label?_removeNode] at hl
  split at hl
  · cases hl
  · exact ⟨‹_›, hl⟩

namespace IsDeadEnd

variable (hd : IsDeadEnd g d) (hg : g.Lax)
include hd hg

theorem above_removeNode (hk : k ≠ d) : (g.removeNode d).above k = g.above k :=
  hg.coherent.above_removeNode_of_not_mem hk (by rw [hd.below]; exact List.not_mem_nil)

omit hg in
theorem mem_inputs : k ∈ (g.removeNode d).inputs ↔ k ∈ g.inputs ∧ k ≠ d := by
  rw [Diagram.mem_inputs_removeNode]
  exact and_congr_right fun _ => ⟨fun h => h hd.contains, fun h _ => h⟩

theorem lax_removeNode : Lax (g.removeNode d) where
  coherent := hg.coherent.removeNode d
  idsBelow := hg.idsBelow.removeNode d
  nodup_inputs := by
    rw [Diagram.inputs_removeNode fun _ => hd.contains]
    exact hg.nodup_inputs.filter _
  nodup_outputs := by
    rw [Diagram.outputs_removeNode hd.notOutput]
    exact hg.nodup_outputs
  input i hi := by
    obtain ⟨hin, hid⟩ := hd.mem_inputs.1 hi
    obtain ⟨hc, habove, hbelow⟩ := hg.input i hin
    refine ⟨?_, ?_, (hg.length_below_removeNode_le d i).trans hbelow⟩
    · exact Diagram.contains_removeNode_iff.2 ⟨hc, hid⟩
    · rw [hd.above_removeNode hg hid, habove]
  output o ho := by
    rw [Diagram.outputs_removeNode hd.notOutput] at ho
    obtain ⟨hc, hbelow, habove⟩ := hg.output o ho
    have hod : o ≠ d := fun h => hd.notOutput (h ▸ ho)
    refine ⟨?_, ?_, ?_⟩
    · exact Diagram.contains_removeNode_iff.2 ⟨hc, hod⟩
    · have := hg.length_below_removeNode_le d o
      rw [hbelow] at this
      exact List.length_eq_zero_iff.1 (Nat.le_zero.1 this)
    · rw [hd.above_removeNode hg hod, habove]
  acyclic := hg.acyclic.removeNode hg.coherent d
  gate k label hl hin hout := by
    obtain ⟨hkd, hlg⟩ := label?_of_removeNode hl
    rw [hd.mem_inputs, not_and_not_right] at hin
    rw [Diagram.outputs_removeNode hd.notOutput] at hout
    rw [hd.above_removeNode hg hkd]
    exact (hg.gate k label hlg (fun hmem => hkd (hin hmem)) hout).mono
      (hg.length_below_removeNode_le d k)

theorem potential_lt : potential (g.removeNode d) < potential g := by
  have hgone : weightAt (g.removeNode d) d = 0 :=
    weightAt_eq_zero (by rw [Diagram.label?_removeNode, if_pos rfl])
  obtain ⟨label, hl⟩ := Diagram.contains_iff_label?.1 hd.contains
  rw [potential, potential, Diagram.nextId_removeNode]
  refine Finset.sum_lt_sum ?_ ⟨d, Finset.mem_range.2 (hg.idsBelow d hd.contains), ?_⟩
  · intro k _
    by_cases hkd : k = d
    · rw [hkd, hgone]
      exact Nat.zero_le _
    · rw [weightAt, weightAt, Diagram.label?_removeNode, if_neg hkd, hd.above_removeNode hg hkd]
      cases g.label? k with
      | none => exact Nat.le_refl 0
      | some label => exact label.weight_mono _ (hg.length_below_removeNode_le d k)
  · rw [hgone, weightAt_eq_weight hl, Gate.weight]
    omega

/-- **Removing a dead end reduces.** -/
theorem reduces : Reduces g (g.removeNode d) where
  lax := hd.lax_removeNode hg
  outputs_eq := Diagram.outputs_removeNode hd.notOutput
  inputs_sublist := by
    rw [Diagram.inputs_removeNode fun _ => hd.contains]
    exact List.filter_sublist
  grounded hground k v hl hout := by
    obtain ⟨hkd, hlg⟩ := label?_of_removeNode hl
    rw [Diagram.outputs_removeNode hd.notOutput] at hout
    rw [hd.above_removeNode hg hkd]
    exact hground k v hlg hout
  plainInputs hp i hi label hl := hp i (hd.mem_inputs.1 hi).1 label (label?_of_removeNode hl).2
  givesNeutral hσ i hi label v hl hv :=
    hσ i (hd.mem_inputs.1 hi).1 label v (label?_of_removeNode hl).2 hv
  label_input _ i hi := by
    rw [Diagram.label?_removeNode, if_neg (hd.mem_inputs.1 hi).2]
  settles hsem σ ν _ hν := by
    refine ⟨ν, ?_, fun _ _ => rfl⟩
    intro k hk
    rw [Diagram.contains_removeNode_iff] at hk
    have hlabel : (g.removeNode d).label? k = g.label? k := by
      rw [Diagram.label?_removeNode, if_neg hk.2]
    have hin : k ∈ (g.removeNode d).inputs ↔ k ∈ g.inputs := by
      rw [hd.mem_inputs]
      exact and_iff_left hk.2
    have hout : k ∈ (g.removeNode d).outputs ↔ k ∈ g.outputs := by
      rw [Diagram.outputs_removeNode hd.notOutput]
    have hargs : ((g.removeNode d).above k).map ν = (g.above k).map ν := by
      rw [hd.above_removeNode hg hk.2]
    rw [hν k hk.1]
    exact (nodeValue_transfer hsem hlabel hin hout (List.Perm.of_eq hargs)).symm
  potential_le := Nat.le_of_lt (hd.potential_lt hg)

end IsDeadEnd

/-! ## Until none is left -/

theorem mem_deadEnds (hg : g.Coherent) : d ∈ g.deadEnds ↔ IsDeadEnd g d := by
  rw [Diagram.deadEnds, List.mem_map]
  constructor
  · rintro ⟨n, hn, rfl⟩
    rw [List.mem_filter, IdMap.mem_values_iff] at hn
    obtain ⟨⟨k, hk⟩, hout⟩ := hn
    have hnode : g.node? k = some n := hk
    rw [hg.id_eq k n hnode] at hout ⊢
    rw [Bool.and_eq_true, beq_iff_eq, ← Diagram.below_eq_nil_iff hnode] at hout
    exact ⟨Diagram.contains_iff.2 ⟨n, hnode⟩, hout.1, by simpa [Diagram.isOutput] using hout.2⟩
  · rintro ⟨hc, hbelow, hout⟩
    obtain ⟨n, hn⟩ := Diagram.contains_iff.1 hc
    refine ⟨n, List.mem_filter.2 ⟨IdMap.mem_values_iff.2 ⟨d, hn⟩, ?_⟩, hg.id_eq d n hn⟩
    rw [Bool.and_eq_true, beq_iff_eq, ← Diagram.below_eq_nil_iff hn, hg.id_eq d n hn]
    exact ⟨hbelow, by simpa [Diagram.isOutput] using hout⟩

theorem contains_of_mem_deadEnds [Words] (hg : g.Stored) (hd : d ∈ g.deadEnds) :
    g.contains d = true := by
  obtain ⟨n, hn, rfl⟩ := List.mem_map.1 hd
  obtain ⟨k, hk⟩ := IdMap.mem_values_iff.1 (List.mem_filter.1 hn).1
  rw [hg k n hk]
  exact Diagram.contains_iff.2 ⟨n, hk⟩

/-- The first dead end at least goes, which is why pruning comes to an end. -/
theorem size_removeNodes_deadEnds_lt [Words] (hg : g.Stored) (h : g.deadEnds ≠ []) :
    (g.removeNodes g.deadEnds).size < g.size := by
  obtain ⟨d, hd⟩ := List.exists_mem_of_ne_nil _ h
  exact Diagram.size_removeNodes_lt hd (contains_of_mem_deadEnds hg hd)

theorem tight_of_no_deadEnds (hg : g.Lax) (h : g.deadEnds = []) : g.Tight := by
  intro k label hl hout _ hbelow
  have := (mem_deadEnds hg.coherent).2 ⟨Diagram.contains_iff_label?.2 ⟨label, hl⟩, hbelow, hout⟩
  rw [h] at this
  cases this

/-- Dead ends can be removed one after the other; each stays one until it goes. -/
theorem reduces_removeNodes (hg : g.Lax) {ids : List Nat}
    (h : ∀ d ∈ ids, g.contains d = true → IsDeadEnd g d) :
    Reduces g (g.removeNodes ids) ∧
      ((∃ d ∈ ids, g.contains d = true) → potential (g.removeNodes ids) < potential g) := by
  induction ids generalizing g with
  | nil => exact ⟨.refl hg, by simp⟩
  | cons d ids ih =>
    show Reduces g ((g.removeNode d).removeNodes ids) ∧
      (_ → potential ((g.removeNode d).removeNodes ids) < potential g)
    by_cases hc : g.contains d = true
    · have hd := h d List.mem_cons_self hc
      -- removing a node takes children away at most, so the others stay dead ends
      have hrest (d' : Nat) (hd' : d' ∈ ids) (hc' : (g.removeNode d).contains d' = true) :
          IsDeadEnd (g.removeNode d) d' := by
        have hcg := hc'
        rw [Diagram.contains_removeNode_iff] at hcg
        have hother := h d' (List.mem_cons_of_mem _ hd') hcg.1
        refine ⟨hc', ?_, ?_⟩
        · have := hg.length_below_removeNode_le d d'
          rw [hother.below] at this
          exact List.length_eq_zero_iff.1 (Nat.le_zero.1 this)
        · rw [Diagram.outputs_removeNode hd.notOutput]
          exact hother.notOutput
      obtain ⟨hr, -⟩ := ih (hd.lax_removeNode hg) hrest
      exact ⟨(hd.reduces hg).trans hr, fun _ => hr.potential_le.trans_lt (hd.potential_lt hg)⟩
    · -- an id that has gone already is passed over
      have hsame : g.removeNode d = g := Diagram.removeNode_eq_self (Bool.eq_false_iff.2 hc)
      obtain ⟨hr, hlt⟩ := ih hg fun d' hd' => h d' (List.mem_cons_of_mem _ hd')
      rw [hsame]
      refine ⟨hr, ?_⟩
      rintro ⟨d', hd', hc'⟩
      rcases List.mem_cons.1 hd' with rfl | hmem
      · exact absurd hc' hc
      · exact hlt ⟨d', hmem, hc'⟩

/-- **Pruning reduces** a circuit to a tight one. It removes nothing only if there is nothing to
    remove. -/
theorem Lax.prune_spec (hg : g.Lax) :
    Reduces g g.prune.1 ∧ (Diagram.deadEnds g.prune.1) = [] ∧
      (g.prune.2 = 0 → g.prune.1 = g) ∧ (g.prune.2 ≠ 0 → potential g.prune.1 < potential g) := by
  induction hsize : g.size using Nat.strongRecOn generalizing g with
  | ind size ih =>
    rw [Diagram.prune]
    by_cases hempty : g.deadEnds = []
    · rw [if_pos (by rw [hempty]; rfl)]
      exact ⟨.refl hg, hempty, fun _ => rfl, fun h => absurd rfl h⟩
    · obtain ⟨d, ds, hds⟩ := List.exists_cons_of_ne_nil hempty
      have hd : IsDeadEnd g d :=
        (mem_deadEnds hg.coherent).1 (by rw [hds]; exact List.mem_cons_self)
      obtain ⟨hsteps, hlower⟩ :=
        reduces_removeNodes hg fun d' hd' _ => (mem_deadEnds hg.coherent).1 hd'
      have hsmaller := size_removeNodes_deadEnds_lt hg.coherent.stored hempty
      have hlt := hlower ⟨d, (mem_deadEnds hg.coherent).2 hd, hd.contains⟩
      obtain ⟨hr, hnone, -, -⟩ := ih _ (hsize ▸ hsmaller) hsteps.lax rfl
      rw [if_neg (by rw [hds]; exact Bool.false_ne_true)]
      dsimp only
      rw [if_pos hsmaller]
      refine ⟨hsteps.trans hr, hnone, ?_, fun _ => hr.potential_le.trans_lt hlt⟩
      intro hzero
      rw [hds, List.length_cons] at hzero
      omega

end Circuit

end Wiring
