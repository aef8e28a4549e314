import Wiring.Proofs.Circuit.Gluing
import Wiring.Proofs.Circuit.Inputs
import Wiring.Proofs.Words.Composition

/-!
# Evaluation of composites

Evaluation turns sequential composition into composition of functions on strings of bits, and bare
wires into the identity. Values of the first operand and values of the second, given what the first
makes of the bits, are values of the composite.

## Main definitions

- `Circuit.cleared` — a circuit whose inputs are plain wires

## Main statements

- `Circuit.Sound.compose_spec` — composites exist, and what they are evaluated to
- `Circuit.evaluation_of_composites`
-/

namespace Wiring

open scoped Unlimited

namespace Circuit

variable {f g : Circuit} {values : List Bool} {bits : String} {n : Nat}

/-- The circuit with plain wires at its inputs. -/
def cleared (g : Circuit) : Circuit := g.relabelAll (g.inputs.map (·, .copy))

theorem clearInputs_eq_ok (hin : ∀ i ∈ g.inputs, g.contains i = true) :
    clearInputs g = .ok (cleared g) := by
  have hnone : g.inputs.find? (!g.contains ·) = none := by
    rw [List.find?_eq_none]
    intro i hi
    simp [hin i hi]
  rw [clearInputs, hnone, cleared, Diagram.relabelAll, List.foldl_map]

/-- Composition of circuits is composition of diagrams. -/
theorem compose_eq [Words] (hin : ∀ i ∈ g.inputs, g.contains i = true) :
    compose f g = Diagram.compose f (cleared g) := by
  rw [compose, clearInputs_eq_ok hin]
  rfl

/-! ## Within words -/

section Words

open Diagram (FittedWithin)

variable [Words] {h : Circuit} {m : Nat}

/-- A circuit that words have room for fits into them. -/
theorem Lax.fittedWithin (hg : g.Lax) (hroom : HasRoom g) : FittedWithin g.nextId g := by
  have hfitted : g.Fitted := ⟨hg.coherent, hg.nodup_inputs, hg.nodup_outputs,
    fun i hi => ⟨(hg.input i hi).1, (hg.input i hi).2.1⟩,
    fun o ho => ⟨(hg.output o ho).1, (hg.output o ho).2.1⟩⟩
  exact ⟨hfitted, hroom.degreesHold,
    hfitted.selfContained.span_le_iff.2 ⟨Nat.le_refl _, hg.idsBelow⟩⟩

theorem fittedWithin_cleared (hg : FittedWithin n g) : FittedWithin n (cleared g) :=
  hg.relabelAll _

/-- Composition within words that hold both spans together. -/
theorem compose_eq_of_holds (hf : FittedWithin m f) (hg : FittedWithin n g)
    (hroom : Words.Holds (m + n)) : compose f g = letI := Unlimited.words; compose f g := by
  have hin (i : Nat) (hi : i ∈ g.inputs) : g.contains i = true := (hg.fitted.input i hi).1
  rw [compose_eq hin, hf.compose_eq (fittedWithin_cleared hg) hroom,
    ← @compose_eq _ _ Unlimited.words hin]

theorem fittedWithin_compose (hf : FittedWithin m f) (hg : FittedWithin n g)
    (hcompose : (letI _ := Unlimited.words; compose f g) = .ok h) : FittedWithin (m + n) h := by
  rw [@compose_eq _ _ Unlimited.words fun i hi => (hg.fitted.input i hi).1] at hcompose
  exact hf.compose (fittedWithin_cleared hg) hcompose

end Words

/-! ## Values of composites -/

theorem isCopy_cleared (hg : g.Lax) : IsCopy id id g (cleared g) :=
  isCopy_relabelAll hg fun e he => by
    obtain ⟨i, hi, rfl⟩ := List.mem_map.1 he
    exact hi

theorem label?_cleared (hnodup : g.inputs.Nodup) {i : Nat} (hi : i ∈ g.inputs)
    (hc : g.contains i = true) : (cleared g).label? i = some .copy := by
  refine Diagram.label?_relabelAll ?_ (List.mem_map.2 ⟨i, hi, rfl⟩) hc
  rw [List.map_map]
  exact (List.map_id g.inputs).symm ▸ hnodup

/-- What is glued after `f` is a copy of `g` that has plain wires at its inputs. -/
theorem isCopy_apartFrom (hg : g.Lax) (f : Circuit) :
    ∃ d, IsCopy (· + d) (· - d) g ((cleared g).apartFrom f) :=
  ⟨(cleared g).clearance f,
    (isCopy_cleared hg).trans (isCopy_shift ((isCopy_cleared hg).lax hg) _)⟩

theorem label?_apartFrom (hg : g.Coherent) (hnodup : g.inputs.Nodup)
    (hin : ∀ i ∈ g.inputs, g.contains i = true) (f : Circuit) {i : Nat}
    (hi : i ∈ ((cleared g).apartFrom f).inputs) :
    ((cleared g).apartFrom f).label? i = some .copy := by
  have hinputs : ((cleared g).apartFrom f).inputs = (cleared g).inputs.map _ :=
    Diagram.inputs_shift
  rw [hinputs] at hi
  obtain ⟨k, hk, rfl⟩ := List.mem_map.1 hi
  have hcleared : (cleared g).Coherent := hg.relabelAll _
  rw [Diagram.apartFrom, Diagram.label?_shift hcleared.id_eq]
  rw [cleared, Diagram.inputs_relabelAll] at hk
  exact label?_cleared hnodup hk (hin k hk)

/-- Circuits that fit can be glued. -/
theorem compose_eq_ok (hf : f.Lax) (hg : g.Lax) (hlength : f.outputs.length = g.inputs.length) :
    ∃ ps, compose f g = .ok (f.weld ps ((cleared g).apartFrom f)) ∧
      Diagram.Welds f ps ((cleared g).apartFrom f) := by
  obtain ⟨d, hcopy⟩ := isCopy_apartFrom hg f
  obtain ⟨ps, hps, hfeed⟩ := Diagram.feeders_eq_ok hf.coherent.positive
    fun o ho => (hf.output o ho).2.2
  have hcleared : (cleared g).inputs.length = g.inputs.length := by
    rw [cleared, Diagram.inputs_relabelAll]
  refine ⟨ps, ?_, Lax.welds hf (hcopy.lax hg) ?_ hfeed ?_⟩
  · have hcheck : f.checkGlue (cleared g) = .ok ps := by
      rw [Diagram.checkGlue, if_pos (hlength.trans hcleared.symm), hps]
    rw [compose_eq fun i => hg.contains_of_mem_inputs, Diagram.compose, hcheck, ← Diagram.glue_eq]
    rfl
  · intro k hk
    exact Diagram.not_contains_apartFrom ((isCopy_cleared hg).lax hg).coherent.id_eq hk
  · rw [hcopy.inputs, List.length_map, hlength]

/-- **Composition within words** that have room for both operands together: they go on to have room
    for the composite. -/
theorem Sound.compose_within [Words] {h : Circuit} (hf : letI := Unlimited.words; f.Sound)
    (hg : letI := Unlimited.words; g.Sound) (hlength : f.outputs.length = g.inputs.length)
    (hroom : RoomFor (f.nextId + g.nextId) (f.extent + g.extent))
    (hcompose : (letI _ := Unlimited.words; compose f g) = .ok h) :
    compose f g = .ok h ∧ h.Lax ∧ HasRoom h := by
  obtain ⟨d, hcopy⟩ := isCopy_apartFrom hg.lax f
  obtain ⟨ps, hweld, hw⟩ := compose_eq_ok hf.lax hg.lax hlength
  have hplain := fun i hi => label?_apartFrom hg.lax.coherent hg.lax.nodup_inputs
    (fun _ => hg.lax.contains_of_mem_inputs) f (i := i) hi
  have hfits := hf.lax.fittedWithin (hroom.mono (Nat.le_add_right _ _) (Nat.le_add_right _ _))
  have hfits' := hg.lax.fittedWithin (hroom.mono (Nat.le_add_left _ _) (Nat.le_add_left _ _))
  refine ⟨?_, ?_, hroom.mono ?_ ?_⟩
  · rw [compose_eq_of_holds hfits hfits' (Words.Holds.mono hroom (Nat.le_add_right _ _)), hcompose]
  · obtain rfl := Except.ok.inj (hcompose.symm.trans hweld)
    exact Lax.weld hw hplain hf.lax (hcopy.lax hg.lax)
  · exact (Diagram.nextId_le_span h).trans (fittedWithin_compose hfits hfits' hcompose).span_le
  · obtain rfl := Except.ok.inj (hcompose.symm.trans hweld)
    exact (extent_weld_le hw).trans (Nat.le_of_eq (by rw [hcopy.extent_eq]))

/-- Values of both operands, taken on the ids of the composite. -/
theorem exists_joint_values (hf : f.Lax) (hg : g.Lax) {h : Circuit} {φ ψ : Nat → Nat}
    (hcopy : IsCopy φ ψ g h) (hapart : ∀ k, f.contains k = true → h.contains k = false)
    {τf τg : Nat → Bool} (hτf : Obeys f τf) (hτg : Obeys g τg) :
    ∃ τ, Obeys f τ ∧ Obeys h τ ∧ f.inputs.map τ = f.inputs.map τf ∧
      f.outputs.map τ = f.outputs.map τf ∧ h.inputs.map τ = g.inputs.map τg ∧
      h.outputs.map τ = g.outputs.map τg := by
  -- no id belongs to both sides, so that neither gets in the way of the other
  let τ (k : Nat) : Bool := if f.contains k = true then τf k else τg (ψ k)
  have hleft (k : Nat) (hk : f.contains k = true) : τ k = τf k := if_pos hk
  have hright (k : Nat) (hk : g.contains k = true) : τ (φ k) = τg k := by
    have hnot : f.contains (φ k) ≠ true := fun hc => by
      have := hapart (φ k) hc
      rw [hcopy.contains, hk] at this
      cases this
    show (if f.contains (φ k) = true then τf (φ k) else τg (ψ (φ k))) = τg k
    rw [if_neg hnot, hcopy.leftInverse]
  refine ⟨τ, hτf.congr hf hleft, hcopy.obeys_iff.2 (hτg.congr hg hright), ?_, ?_, ?_, ?_⟩
  · exact List.map_congr_left fun i hi => hleft i (hf.contains_of_mem_inputs hi)
  · exact List.map_congr_left fun o ho => hleft o (hf.contains_of_mem_outputs ho)
  · rw [hcopy.inputs, List.map_map]
    exact List.map_congr_left fun i hi => hright i (hg.contains_of_mem_inputs hi)
  · rw [hcopy.outputs, List.map_map]
    exact List.map_congr_left fun o ho => hright o (hg.contains_of_mem_outputs ho)

/-- A negation. -/
def negation : Circuit :=
  Diagram.ofNodes [0] [2]
    [.ofEdges 0 (.free "y") [] [(1, 1)], .ofEdges 1 .not [(0, 1)] [(2, 1)],
      .ofEdges 2 .copy [(1, 1)] []]

/-- **Circuits that fit have a composite**, which is evaluated like one operand after the other. -/
theorem Sound.compose_spec (hf : f.Sound) (hg : g.Sound) (hgf : f.Grounded) (hgg : g.Grounded)
    (hlength : f.outputs.length = g.inputs.length) :
    ∃ h, compose f g = .ok h ∧ h.inputs = f.inputs ∧
      ∀ values, values.length = f.inputs.length → ∃ between after,
        between.length = g.inputs.length ∧
        evaluateOn (bitString values) f = .ok (bitString between) ∧
        evaluateOn (bitString between) g = .ok (bitString after) ∧
        evaluateOn (bitString values) h = .ok (bitString after) := by
  obtain ⟨d, hcopy⟩ := isCopy_apartFrom hg.lax f
  obtain ⟨ps, hcompose, hw⟩ := compose_eq_ok hf.lax hg.lax hlength
  have hplain := fun i hi => label?_apartFrom hg.lax.coherent hg.nodup_inputs
    (fun _ => hg.lax.contains_of_mem_inputs) f (i := i) hi
  have hsound : Sound (f.weld ps ((cleared g).apartFrom f)) :=
    Sound.weld hw hplain hf (hcopy.sound hg)
  have hground : Grounded (f.weld ps ((cleared g).apartFrom f)) :=
    Grounded.weld hw hplain hgf (hcopy.grounded hg.lax hgg)
  refine ⟨_, hcompose, hw.inputs_weld, ?_⟩
  intro values hvalues
  -- the bits fix values of `f`, and the values of its outputs fix values of `g`
  obtain ⟨τf, hτf, rfl⟩ := hf.lax.exists_obeys hvalues
  have hfits : (f.outputs.map τf).length = g.inputs.length := by rw [List.length_map, hlength]
  obtain ⟨τg, hτg, hbetween⟩ := hg.lax.exists_obeys hfits
  obtain ⟨τ, hτ, hτ', hin, hout, hin', hout'⟩ :=
    exists_joint_values hf.lax hg.lax hcopy hw.apart hτf hτg
  refine ⟨f.outputs.map τf, g.outputs.map τg, hfits, hf.evaluateOn_eq hgf hτf, ?_, ?_⟩
  · rw [← hbetween]
    exact hg.evaluateOn_eq hgg hτg
  · have hjoint : f.outputs.map τ = ((cleared g).apartFrom f).inputs.map τ := by
      rw [hout, hin', hbetween]
    have heval := hsound.evaluateOn_eq hground
      (Obeys.weld hw hplain hτ hτ' (hcopy.lax hg.lax) hjoint)
    rw [hw.inputs_weld, hin] at heval
    rw [heval, ← hout']
    rfl

/-! ## Bare wires -/

theorem evaluateOn_identity (values : List Bool) :
    evaluateOn (bitString values) (Diagram.identity values.length) = .ok (bitString values) := by
  obtain ⟨hsound, hground, hfeed⟩ := identity_spec values.length
  have hlength : values.length = (Diagram.identity values.length : Circuit).inputs.length :=
    (Diagram.length_inputs_identity values.length).symm
  obtain ⟨τ, hτ, hvalues⟩ := hsound.lax.exists_obeys hlength
  have heval := hsound.evaluateOn_eq hground hτ
  rwa [hτ.map_feed hfeed, hvalues] at heval

theorem Sound.identity_compose (hf : f.Sound) (hground : f.Grounded) :
    ∃ h, compose (Diagram.identity f.source) f = .ok h ∧
      ∀ bits, evaluateOn bits h = evaluateOn bits f := by
  obtain ⟨hsound, hground', -⟩ := identity_spec f.source
  obtain ⟨h, hcompose, hinputs, hspec⟩ := hsound.compose_spec hf hground' hground
    (Diagram.length_outputs_identity f.source)
  have hlength : h.inputs.length = f.inputs.length := by
    rw [hinputs, Diagram.length_inputs_identity]
    rfl
  refine ⟨h, hcompose, evaluateOn_eq_of_bitString hlength ?_⟩
  intro values hvalues
  obtain ⟨between, after, -, hfirst, hsecond, heval⟩ := hspec values (hvalues.trans (hinputs ▸ rfl))
  have hsame : bitString between = bitString values := by
    have hwires := evaluateOn_identity values
    rw [hvalues, hlength, ← Diagram.source, hfirst] at hwires
    exact Except.ok.inj hwires
  rw [heval, ← hsame, hsecond]

theorem Sound.compose_identity (hf : f.Sound) (hground : f.Grounded) :
    ∃ h, compose f (Diagram.identity f.target) = .ok h ∧
      ∀ bits, evaluateOn bits h = evaluateOn bits f := by
  obtain ⟨hsound, hground', -⟩ := identity_spec f.target
  obtain ⟨h, hcompose, hinputs, hspec⟩ := hf.compose_spec hsound hground hground'
    (Diagram.length_inputs_identity f.target).symm
  refine ⟨h, hcompose, evaluateOn_eq_of_bitString (by rw [hinputs]) ?_⟩
  intro values hvalues
  obtain ⟨between, after, hbetween, hfirst, hsecond, heval⟩ := hspec values (hinputs ▸ hvalues)
  rw [Diagram.length_inputs_identity] at hbetween
  have hsame := evaluateOn_identity between
  rw [hbetween, hsecond] at hsame
  rw [heval, hfirst, hsame]

/-! ### Within words -/

/-- Bare wires that words have room for: each has two ids, two nodes and both ends of an edge. -/
theorem hasRoom_identity [Words] (hroom : RoomFor (2 * n) (4 * n)) :
    HasRoom (letI _ := Unlimited.words; Diagram.identity n) := by
  rw [HasRoom, extent_identity, Diagram.nextId_identity]
  exact hroom

theorem identity_eq_of_roomFor [Words] (hroom : RoomFor (2 * n) (4 * n)) :
    (Diagram.identity n : Circuit) = letI := Unlimited.words; Diagram.identity n :=
  Diagram.identity_eq (Words.Holds.mono hroom (Nat.le_add_right _ _))

section Machine

open scoped Machine

end Machine

end Circuit

end Wiring
