import Wiring.Proofs.Circuit.Composition
import Wiring.Proofs.Diagram.Associativity

/-!
# Composition of circuits is associative

Circuits are composed like diagrams, except that the inputs of the second operand become plain
wires. Whether these are cleared before the operand is glued to a third one or afterwards makes no
difference, so associativity carries over.

## Main statements

- `Circuit.isomorphic_cleared_weld` — clearing the inputs of a composite
- `Circuit.composition_associative`
-/

namespace Wiring

open scoped Unlimited

namespace Circuit

open Diagram (IsArrow Isomorphic Welds)

variable {a b c f g : Circuit} {ps : List Nat} {k : Nat}

/-! ## Plain wires at the inputs -/

@[simp] theorem contains_cleared : (cleared g).contains k = g.contains k :=
  Diagram.contains_relabelAll

@[simp] theorem above_cleared : (cleared g).above k = g.above k := Diagram.above_relabelAll

@[simp] theorem below_cleared : (cleared g).below k = g.below k := Diagram.below_relabelAll

@[simp] theorem inputs_cleared : (cleared g).inputs = g.inputs := Diagram.inputs_relabelAll

@[simp] theorem outputs_cleared : (cleared g).outputs = g.outputs := Diagram.outputs_relabelAll

theorem label?_cleared_of_not_mem (hk : k ∉ g.inputs) : (cleared g).label? k = g.label? k := by
  refine Diagram.label?_relabelAll_of_not_mem ?_
  rw [List.map_map]
  exact (List.map_id g.inputs).symm ▸ hk

theorem isArrow_cleared (hg : IsArrow g) : IsArrow (cleared g) := by
  refine Diagram.isArrow_iff.2 ⟨hg.coherent.relabelAll _, ?_, ?_, fun i hi => ?_, fun o ho => ?_⟩
  · rw [inputs_cleared]
    exact hg.nodup_inputs
  · rw [outputs_cleared]
    exact hg.nodup_outputs
  · rw [contains_cleared, above_cleared, below_cleared]
    exact hg.input (inputs_cleared ▸ hi)
  · rw [contains_cleared, above_cleared, below_cleared]
    exact hg.output (outputs_cleared ▸ ho)

/-! ## Clearing the inputs of a composite -/

theorem welds_cleared (hw : Welds f ps g) (hf : IsArrow f) (hg : IsArrow g) :
    Welds (cleared f) ps g := by
  refine (isArrow_cleared hf).welds hg (fun k hk => ?_) ?_ hw.length_eq
  · rw [contains_cleared] at hk
    exact hw.apart k hk
  · have hsame : Diagram.above (cleared f) = Diagram.above f := funext fun _ => above_cleared
    rw [outputs_cleared, hsame, hw.feed]

/-- **The inputs of a composite are those of the first operand.** -/
theorem isomorphic_cleared_weld (hw : Welds f ps g) (hf : IsArrow f) (hg : IsArrow g) :
    Isomorphic (cleared (f.weld ps g)) ((cleared f).weld ps g) := by
  have hw' := welds_cleared hw hf hg
  have harr := hw.isArrow hf hg
  have houtputs {k : Nat} (hk : k ∉ f.outputs) : k ∉ (cleared f).outputs := by
    rwa [outputs_cleared]
  refine Diagram.isomorphic_of_same_ids (isArrow_cleared harr).coherent hw'.coherent (fun k => ?_)
    (fun k hk => ?_) (fun k hk => ?_) ?_ ?_
  · rw [contains_cleared, hw.contains_weld, hw'.contains_weld, contains_cleared, outputs_cleared]
  · rw [contains_cleared] at hk
    by_cases hin : k ∈ f.inputs
    · have hc := hf.contains_of_mem_inputs k hin
      rw [hw'.label?_weld_left (contains_cleared.trans hc) (houtputs (hf.not_mem_outputs hin)),
        label?_cleared hf.nodup_inputs hin hc,
        label?_cleared harr.nodup_inputs (hw.inputs_weld.symm ▸ hin) hk]
    · have hin' : k ∉ (f.weld ps g).inputs := hw.inputs_weld.symm ▸ hin
      rw [label?_cleared_of_not_mem hin']
      rcases hw.contains_weld.1 hk with ⟨hkf, hout⟩ | hkg
      · rw [hw'.label?_weld_left (contains_cleared.trans hkf) (houtputs hout),
          label?_cleared_of_not_mem hin, hw.label?_weld_left hkf hout]
      · rw [hw'.label?_weld_right hkg, hw.label?_weld_right hkg]
  · rw [contains_cleared] at hk
    rw [above_cleared]
    rcases hw.contains_weld.1 hk with ⟨hkf, hout⟩ | hkg
    · have hperm := hw'.above_left (contains_cleared.trans hkf) (houtputs hout)
      rw [above_cleared] at hperm
      exact hperm.trans (hw.above_left hkf hout).symm
    · by_cases hin : k ∈ g.inputs
      · obtain ⟨p, hp⟩ := hw.exists_feeder hin
        rw [hw.above_input hp, hw'.above_input hp]
      · exact (hw'.above_right hkg hin).trans (hw.above_right hkg hin).symm
  · rw [hw'.inputs_weld, inputs_cleared, inputs_cleared, hw.inputs_weld]
  · rw [outputs_cleared]
    rfl

/-- Clearing the inputs before composing or afterwards comes to the same. -/
theorem exists_cleared_compose (hf : IsArrow f) (hg : IsArrow g) (hfit : f.target = g.source) :
    ∃ h h', Diagram.compose f g = .ok h ∧ Diagram.compose (cleared f) g = .ok h' ∧ IsArrow h ∧
      IsArrow h' ∧ Isomorphic (cleared h) h' := by
  obtain ⟨ps, hcompose, hw⟩ := hf.compose_eq_ok hg hfit
  have hg' : IsArrow (g.apartFrom f) := hg.shift _
  have harr := hw.isArrow hf hg'
  obtain ⟨h', hcompose', hh', hiso⟩ := (isArrow_cleared hf).exists_compose hg
    (.refl (isArrow_cleared hf).coherent) (hg.isomorphic_apartFrom f) (welds_cleared hw hf hg')
  exact ⟨_, h', hcompose, hcompose', harr, hh',
    (isomorphic_cleared_weld hw hf hg').trans (hiso.symm hh')⟩

/-! ## Associativity -/

theorem compose_assoc (ha : IsArrow a) (hb : IsArrow b) (hc : IsArrow c)
    (hab : a.target = b.source) (hbc : b.target = c.source) :
    ∃ ab bc l r, compose a b = .ok ab ∧ compose ab c = .ok l ∧ compose b c = .ok bc ∧
      compose a bc = .ok r ∧ Isomorphic l r := by
  have hb' := isArrow_cleared hb
  have hc' := isArrow_cleared hc
  have hab' : a.target = (cleared b).source :=
    hab.trans (congrArg List.length inputs_cleared).symm
  have hbc' : b.target = (cleared c).source :=
    hbc.trans (congrArg List.length inputs_cleared).symm
  have hcleared : (cleared b).target = b.target := congrArg List.length outputs_cleared
  obtain ⟨ab, x, l, r, habeq, hleq, hxeq, hreq, hiso⟩ :=
    ha.compose_assoc hb' hc' hab' (hcleared.trans hbc')
  obtain ⟨bc, x', hbceq, hxeq', hbcarr, hxarr, hbcx⟩ := exists_cleared_compose hb hc' hbc'
  obtain rfl : x' = x := Except.ok.inj (hxeq'.symm.trans hxeq)
  -- `a` fits the composite of the two others because it fits `b`
  have hfit : a.target = x'.source := by
    obtain ⟨ps, hcompose, hw⟩ := hb'.compose_eq_ok hc' (hcleared.trans hbc')
    obtain rfl := Except.ok.inj (hxeq.symm.trans hcompose)
    exact hab'.trans (congrArg List.length hw.inputs_weld).symm
  obtain ⟨r', s, hr'eq, hseq, hr'arr, -, hr's⟩ := ha.compose_congr (isArrow_cleared hbcarr) ha hxarr
    (.refl ha.coherent) hbcx hfit
  obtain rfl : s = r := Except.ok.inj (hseq.symm.trans hreq)
  refine ⟨ab, bc, l, r', (compose_eq hb.contains_of_mem_inputs).trans habeq,
    (compose_eq hc.contains_of_mem_inputs).trans hleq,
    (compose_eq hc.contains_of_mem_inputs).trans hbceq,
    (compose_eq hbcarr.contains_of_mem_inputs).trans hr'eq, ?_⟩
  exact hiso.trans (hr's.symm hr'arr)

/-- An input that goes to two outputs; the next id is in use. -/
def fork : Circuit :=
  { Diagram.ofNodes [0] [2, 3]
      [.ofEdges 0 (.free "x") [] [(1, 1)], .ofEdges 1 .copy [(0, 1)] [(2, 1), (3, 1)],
        .ofEdges 2 .copy [(1, 1)] [], .ofEdges 3 .copy [(1, 1)] []] with
    nextId := 1 }

/-- Two wires that cross, with nothing between input and output. -/
def crossing : Circuit :=
  Diagram.ofNodes [0, 1] [3, 2]
    [.ofEdges 0 (.free "x") [] [(2, 1)], .ofEdges 1 (.const true) [] [(3, 1)],
      .ofEdges 2 .copy [(0, 1)] [], .ofEdges 3 .copy [(1, 1)] []]

section Machine

open scoped Machine

end Machine

end Circuit

end Wiring
