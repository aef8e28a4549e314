import Wiring.Proofs.Circuit.Meaning
import Wiring.Proofs.Diagram.Copies

/-!
# Circuits under other ids

What a circuit computes from its inputs depends neither on its ids nor on what its inputs are
labelled with. It is said by values that satisfy the equations of all nodes but the inputs, and
these are the same for every copy.

## Main definitions

- `Circuit.Obeys` — values that satisfy all equations but those of inputs
- `Circuit.IsCopy` — a circuit under other ids and with other labels at the inputs

## Main statements

- `Circuit.IsCopy.sound`, `Circuit.IsCopy.grounded`, `Circuit.IsCopy.obeys_iff` — what copies have
  in common
- `Circuit.isCopy_relabelAll`, `Circuit.isCopy_shift` — the two ways to make copies
-/

namespace Wiring

open scoped Unlimited

namespace Circuit

variable {g h : Circuit} {φ ψ : Nat → Nat} {τ τ' : Nat → Bool} {k : Nat}

/-- The values satisfy the equation of every node that is no input. -/
structure Obeys (g : Circuit) (τ : Nat → Bool) : Prop where
  output : ∀ o ∈ g.outputs, τ o = Gate.sole ((g.above o).map τ)
  gate : ∀ k label, g.label? k = some label → k ∉ g.inputs → k ∉ g.outputs →
    τ k = label.truth ((g.above k).map τ)

theorem Lax.obeys_of_settles (hg : g.Lax) {ρ : Nat → Bool} (hτ : Settles Gate.truth g ρ τ) :
    Obeys g τ := by
  constructor
  · intro o ho
    rw [hτ o (hg.contains_of_mem_outputs ho), nodeValue_output ho]
  · intro k label hl hin hout
    rw [hτ k (Diagram.contains_iff_label?.2 ⟨_, hl⟩), nodeValue_gate hl hout (.inl hin)]

/-- Only the values of nodes matter. -/
theorem Obeys.congr (hτ : Obeys g τ) (hg : g.Lax) (h : ∀ k, g.contains k = true → τ' k = τ k) :
    Obeys g τ' := by
  have habove (k : Nat) : (g.above k).map τ' = (g.above k).map τ :=
    List.map_congr_left fun u hu => h u (hg.coherent.contains_of_mem_above hu)
  constructor
  · intro o ho
    rw [h o (hg.contains_of_mem_outputs ho), habove, hτ.output o ho]
  · intro k label hl hin hout
    rw [h k (Diagram.contains_iff_label?.2 ⟨label, hl⟩), habove, hτ.gate k label hl hin hout]

/-- Outputs have the values of the nodes that feed them. -/
theorem Obeys.map_feed (hτ : Obeys g τ) {ps : List Nat}
    (hfeed : g.outputs.map g.above = ps.map ([·])) : g.outputs.map τ = ps.map τ :=
  calc g.outputs.map τ = (g.outputs.map g.above).map fun l => Gate.sole (l.map τ) := by
        rw [List.map_map]
        exact List.map_congr_left hτ.output
    _ = (ps.map ([·])).map fun l => Gate.sole (l.map τ) := by rw [hfeed]
    _ = ps.map τ := by
        rw [List.map_map]
        rfl

/-! ## Copies -/

/-- **A copy**: `h` is `g` with `φ k` in place of every id `k`, and with other labels at the inputs
    at most. -/
structure IsCopy (φ ψ : Nat → Nat) (g h : Circuit) : Prop where
  leftInverse : Function.LeftInverse ψ φ
  coherent : h.Coherent
  idsBelow : h.IdsBelow
  range : ∀ j, h.contains j = true → ∃ k, φ k = j
  contains : ∀ k, h.contains (φ k) = g.contains k
  inputs : h.inputs = g.inputs.map φ
  outputs : h.outputs = g.outputs.map φ
  above : ∀ k, h.above (φ k) = (g.above k).map φ
  below : ∀ k, h.below (φ k) = (g.below k).map φ
  label : ∀ k, k ∉ g.inputs → h.label? (φ k) = g.label? k

namespace IsCopy

variable (hc : IsCopy φ ψ g h)
include hc

theorem mem_inputs : φ k ∈ h.inputs ↔ k ∈ g.inputs := by
  rw [hc.inputs, List.mem_map_of_injective hc.leftInverse.injective]

theorem mem_outputs : φ k ∈ h.outputs ↔ k ∈ g.outputs := by
  rw [hc.outputs, List.mem_map_of_injective hc.leftInverse.injective]

theorem lax (hg : g.Lax) : h.Lax where
  coherent := hc.coherent
  idsBelow := hc.idsBelow
  nodup_inputs := hc.inputs ▸ hg.nodup_inputs.map hc.leftInverse.injective
  nodup_outputs := hc.outputs ▸ hg.nodup_outputs.map hc.leftInverse.injective
  input i hi := by
    rw [hc.inputs] at hi
    obtain ⟨k, hk, rfl⟩ := List.mem_map.1 hi
    obtain ⟨hkg, habove, hbelow⟩ := hg.input k hk
    rw [hc.contains, hc.above, hc.below, habove, List.length_map]
    exact ⟨hkg, rfl, hbelow⟩
  output o ho := by
    rw [hc.outputs] at ho
    obtain ⟨k, hk, rfl⟩ := List.mem_map.1 ho
    obtain ⟨hkg, hbelow, habove⟩ := hg.output k hk
    rw [hc.contains, hc.above, hc.below, hbelow, List.length_map]
    exact ⟨hkg, rfl, habove⟩
  acyclic := by
    obtain ⟨r, hr⟩ := hg.acyclic
    refine ⟨fun j => r (ψ j), ?_⟩
    intro u v hu
    obtain ⟨k, rfl⟩ := hc.range v (Diagram.contains_of_mem_above hu)
    rw [hc.above] at hu
    obtain ⟨i, hi, rfl⟩ := List.mem_map.1 hu
    show r (ψ (φ i)) < r (ψ (φ k))
    rw [hc.leftInverse, hc.leftInverse]
    exact hr i k hi
  gate j label hl hin hout := by
    obtain ⟨k, rfl⟩ := hc.range j (Diagram.contains_iff_label?.2 ⟨label, hl⟩)
    rw [hc.mem_inputs] at hin
    rw [hc.mem_outputs] at hout
    rw [hc.label k hin] at hl
    rw [hc.above, hc.below, List.length_map, List.length_map]
    exact hg.gate k label hl hin hout

theorem tight (hg : g.Tight) : h.Tight := by
  intro j label hl hout hres
  obtain ⟨k, rfl⟩ := hc.range j (Diagram.contains_iff_label?.2 ⟨label, hl⟩)
  rw [hc.mem_outputs] at hout
  rw [hc.mem_inputs] at hres
  rw [hc.below, ne_eq, List.map_eq_nil_iff]
  by_cases hin : k ∈ g.inputs
  · have hk : g.contains k = true := by
      rw [← hc.contains]
      exact Diagram.contains_iff_label?.2 ⟨label, hl⟩
    obtain ⟨label', hl'⟩ := Diagram.contains_iff_label?.1 hk
    exact hg k label' hl' hout (.inl hin)
  · rw [hc.label k hin] at hl
    exact hg k label hl hout hres

theorem sound (hg : g.Sound) : h.Sound := sound_iff.2 ⟨hc.lax hg.lax, hc.tight hg.tight⟩

theorem grounded (hg : g.Lax) (hground : g.Grounded) : h.Grounded := by
  intro j v hl hout
  obtain ⟨k, rfl⟩ := hc.range j (Diagram.contains_iff_label?.2 ⟨_, hl⟩)
  rw [hc.mem_outputs] at hout
  rw [hc.above, List.map_eq_nil_iff]
  by_cases hin : k ∈ g.inputs
  · exact (hg.input k hin).2.1
  · rw [hc.label k hin] at hl
    exact hground k v hl hout

/-- The equations of a copy are those of the original. -/
theorem obeys_iff : Obeys h τ ↔ Obeys g fun k => τ (φ k) := by
  have hmap (k : Nat) : (h.above (φ k)).map τ = (g.above k).map fun k => τ (φ k) := by
    rw [hc.above, List.map_map]
    rfl
  constructor
  · intro hτ
    constructor
    · intro o ho
      rw [hτ.output (φ o) (hc.mem_outputs.2 ho), hmap]
    · intro k label hl hin hout
      rw [hτ.gate (φ k) label ((hc.label k hin).trans hl) (mt hc.mem_inputs.1 hin)
        (mt hc.mem_outputs.1 hout), hmap]
  · intro hτ
    constructor
    · intro j hj
      have hj' := hj
      rw [hc.outputs] at hj'
      obtain ⟨o, ho, rfl⟩ := List.mem_map.1 hj'
      rw [hτ.output o ho, hmap]
    · intro j label hl hin hout
      obtain ⟨k, rfl⟩ := hc.range j (Diagram.contains_iff_label?.2 ⟨label, hl⟩)
      rw [hc.mem_inputs] at hin
      rw [hc.mem_outputs] at hout
      rw [hc.label k hin] at hl
      rw [hτ.gate k label hl hin hout, hmap]

/-- A copy of a copy is a copy. -/
theorem trans {φ' ψ' : Nat → Nat} {h' : Circuit} (hc' : IsCopy φ' ψ' h h') :
    IsCopy (fun k => φ' (φ k)) (fun j => ψ (ψ' j)) g h' where
  leftInverse k := by
    show ψ (ψ' (φ' (φ k))) = k
    rw [hc'.leftInverse, hc.leftInverse]
  coherent := hc'.coherent
  idsBelow := hc'.idsBelow
  range j hj := by
    obtain ⟨i, rfl⟩ := hc'.range j hj
    obtain ⟨k, rfl⟩ := hc.range i (hc'.contains i ▸ hj)
    exact ⟨k, rfl⟩
  contains k := by rw [hc'.contains, hc.contains]
  inputs := by
    rw [hc'.inputs, hc.inputs, List.map_map]
    rfl
  outputs := by
    rw [hc'.outputs, hc.outputs, List.map_map]
    rfl
  above k := by
    rw [hc'.above, hc.above, List.map_map]
    rfl
  below k := by
    rw [hc'.below, hc.below, List.map_map]
    rfl
  label k hk := by rw [hc'.label (φ k) (mt hc.mem_inputs.1 hk), hc.label k hk]

end IsCopy

/-- Other labels at inputs make a copy. -/
theorem isCopy_relabelAll (hg : g.Lax) {es : List (Nat × Gate)} (hes : ∀ e ∈ es, e.1 ∈ g.inputs) :
    IsCopy id id g (g.relabelAll es) where
  leftInverse _ := rfl
  coherent := hg.coherent.relabelAll es
  idsBelow := hg.idsBelow.relabelAll es
  range j _ := ⟨j, rfl⟩
  contains _ := Diagram.contains_relabelAll
  inputs := by rw [Diagram.inputs_relabelAll, List.map_id]
  outputs := by rw [Diagram.outputs_relabelAll, List.map_id]
  above k := by rw [id, Diagram.above_relabelAll, List.map_id]
  below k := by rw [id, Diagram.below_relabelAll, List.map_id]
  label k hk := Diagram.label?_relabelAll_of_not_mem fun hmem => by
    obtain ⟨e, he, rfl⟩ := List.mem_map.1 hmem
    exact hk (hes e he)

/-- Raising all ids makes a copy. -/
theorem isCopy_shift (hg : g.Lax) (d : Nat) : IsCopy (· + d) (· - d) g (g.shift d) where
  leftInverse k := Nat.add_sub_cancel k d
  coherent := hg.coherent.shift d
  idsBelow := hg.idsBelow.shift hg.coherent d
  range j hj := by
    obtain ⟨k, rfl, -⟩ := Diagram.exists_of_contains_shift hg.coherent.id_eq hj
    exact ⟨k, rfl⟩
  contains _ := Diagram.contains_shift hg.coherent.id_eq
  inputs := Diagram.inputs_shift
  outputs := Diagram.outputs_shift
  above _ := Diagram.above_shift hg.coherent.id_eq
  below _ := Diagram.below_shift hg.coherent.id_eq
  label _ _ := Diagram.label?_shift hg.coherent.id_eq

end Circuit

end Wiring
