import Wiring.Proofs.Diagram.Gluing
import Wiring.Proofs.Diagram.Validity
import Wiring.Proofs.Words.Degrees

/-!
# Arrows

A diagram is an arrow from its inputs to its outputs if it passes the check and has nothing to hide
that the check does not look at. Nothing is asked of the next id, which a diagram from outside may
have too low. Arrows side by side are an arrow, and so are arrows glued where they fit.

## Main definitions

- `Diagram.IsArrow` — a well-formed diagram without zeros and repeated terminals

## Main statements

- `Diagram.isArrow_iff` — arrows by their neighbour lists
- `Diagram.Beside.isArrow`, `Diagram.Welds.isArrow` — arrows put together
- `Diagram.IsArrow.exists_welds` — arrows that fit can be glued
-/

namespace Wiring.Diagram

open scoped Unlimited

variable {α : Type} {f g u : Diagram α} {ps : List Nat} {i k o : Nat}

/-- No node belongs to both of two diagrams that are apart. -/
theorem false_of_apart (hapart : ∀ k, f.contains k = true → g.contains k = false)
    (hf : f.contains k = true) (hg : g.contains k = true) : False := by
  rw [hapart k hf] at hg
  cases hg

/-- **An arrow**: the diagram passes the check, no edge is counted zero times and no terminal is
    listed twice. -/
structure IsArrow [Words] (g : Diagram α) : Prop where
  isWellFormed : g.isWellFormed = true
  positive : g.Positive
  nodup_inputs : g.inputs.Nodup
  nodup_outputs : g.outputs.Nodup

instance [Words] (g : Diagram α) : Decidable g.IsArrow :=
  decidable_of_iff (g.isWellFormed = true ∧ g.Positive ∧ g.inputs.Nodup ∧ g.outputs.Nodup)
    ⟨fun ⟨h₁, h₂, h₃, h₄⟩ => ⟨h₁, h₂, h₃, h₄⟩, fun h => ⟨h.1, h.2, h.3, h.4⟩⟩

/-- Words that hold the degrees make no difference. -/
theorem DegreesHold.isArrow_iff [Words] (h : g.DegreesHold) :
    g.IsArrow ↔ letI := Unlimited.words; g.IsArrow := by
  constructor
  · rintro ⟨hwf, hpositive, hnodup, hnodup'⟩
    rw [h.isWellFormed_eq] at hwf
    exact @IsArrow.mk _ Unlimited.words _ hwf hpositive hnodup hnodup'
  · rintro ⟨hwf, hpositive, hnodup, hnodup'⟩
    rw [← h.isWellFormed_eq] at hwf
    exact ⟨hwf, hpositive, hnodup, hnodup'⟩

/-- **Arrows by their neighbour lists**: an input has a single edge out and none in, and an output a
    single edge in and none out. -/
theorem isArrow_iff : g.IsArrow ↔ g.Coherent ∧ g.inputs.Nodup ∧ g.outputs.Nodup ∧
    (∀ i ∈ g.inputs, g.contains i = true ∧ g.above i = [] ∧ (g.below i).length = 1) ∧
    ∀ o ∈ g.outputs, g.contains o = true ∧ g.below o = [] ∧ (g.above o).length = 1 := by
  constructor
  · intro h
    obtain ⟨hin, hout, hg⟩ := (isWellFormed_iff h.positive).1 h.isWellFormed
    exact ⟨hg, h.nodup_inputs, h.nodup_outputs, hin, hout⟩
  · rintro ⟨hg, hnodup, hnodup', hin, hout⟩
    exact ⟨(isWellFormed_iff hg.positive).2 ⟨hin, hout, hg⟩, hg.positive, hnodup, hnodup'⟩

namespace IsArrow

theorem coherent [Words] (hg : g.IsArrow) : g.Coherent := by
  obtain ⟨-, -, hsealed⟩ := isWellFormed_iff_sealed.1 hg.isWellFormed
  exact ⟨hsealed.stored, hg.positive, hsealed.agree⟩

theorem contains_of_mem_inputs [Words] (hg : g.IsArrow) : ∀ i ∈ g.inputs, g.contains i = true :=
  fun i hi => contains_of_inputOk ((isWellFormed_iff_sealed.1 hg.isWellFormed).1 i hi)

theorem contains_of_mem_outputs [Words] (hg : g.IsArrow) :
    ∀ o ∈ g.outputs, g.contains o = true :=
  fun o ho => contains_of_outputOk ((isWellFormed_iff_sealed.1 hg.isWellFormed).2.1 o ho)

variable (hg : g.IsArrow)
include hg

theorem input (hi : i ∈ g.inputs) :
    g.contains i = true ∧ g.above i = [] ∧ (g.below i).length = 1 :=
  (isArrow_iff.1 hg).2.2.2.1 i hi

theorem output (ho : o ∈ g.outputs) :
    g.contains o = true ∧ g.below o = [] ∧ (g.above o).length = 1 :=
  (isArrow_iff.1 hg).2.2.2.2 o ho

/-- No terminal is listed on both sides. -/
theorem not_mem_outputs (hi : i ∈ g.inputs) : i ∉ g.outputs := fun ho => by
  have hone := (hg.output ho).2.2
  rw [(hg.input hi).2.1] at hone
  cases hone

end IsArrow

/-! ## Side by side -/

theorem isArrow_empty : (empty : Diagram α).IsArrow where
  isWellFormed := rfl
  positive _ _ hn := nomatch hn
  nodup_inputs := .nil
  nodup_outputs := .nil

theorem Beside.isArrow (hu : Beside f g u) (hf : f.IsArrow) (hg : g.IsArrow) : u.IsArrow := by
  refine isArrow_iff.2 ⟨hu.coherent hf.coherent hg.coherent, ?_, ?_, fun i hi => ?_, fun o ho => ?_⟩
  · exact hu.inputs ▸ hu.nodup_append hf.nodup_inputs hg.nodup_inputs hf.contains_of_mem_inputs
      hg.contains_of_mem_inputs
  · exact hu.outputs ▸ hu.nodup_append hf.nodup_outputs hg.nodup_outputs hf.contains_of_mem_outputs
      hg.contains_of_mem_outputs
  · rw [hu.inputs, List.mem_append] at hi
    rcases hi with hi | hi
    · obtain ⟨hc, habove, hbelow⟩ := hf.input hi
      exact ⟨hu.contains_iff.2 (.inl hc), by rw [hu.above_left hc, habove],
        by rw [hu.below_left hc, hbelow]⟩
    · obtain ⟨hc, habove, hbelow⟩ := hg.input hi
      exact ⟨hu.contains_iff.2 (.inr hc), by rw [hu.symm.above_left hc, habove],
        by rw [hu.symm.below_left hc, hbelow]⟩
  · rw [hu.outputs, List.mem_append] at ho
    rcases ho with ho | ho
    · obtain ⟨hc, hbelow, habove⟩ := hf.output ho
      exact ⟨hu.contains_iff.2 (.inl hc), by rw [hu.below_left hc, hbelow],
        by rw [hu.above_left hc, habove]⟩
    · obtain ⟨hc, hbelow, habove⟩ := hg.output ho
      exact ⟨hu.contains_iff.2 (.inr hc), by rw [hu.symm.below_left hc, hbelow],
        by rw [hu.symm.above_left hc, habove]⟩

/-! ## One after the other -/

theorem IsArrow.welds (hf : f.IsArrow) (hg : g.IsArrow)
    (hapart : ∀ k, f.contains k = true → g.contains k = false)
    (hfeed : f.outputs.map f.above = ps.map ([·])) (hlength : ps.length = g.inputs.length) :
    Welds f ps g where
  left := hf.coherent
  right := hg.coherent
  apart := hapart
  inputs_left _ hi := (hf.input hi).2.1
  inputs_right _ hi := ⟨(hg.input hi).1, (hg.input hi).2.1⟩
  outputs_left _ ho := (hf.output ho).2.1
  nodup_inputs := hg.nodup_inputs
  nodup_outputs := hf.nodup_outputs
  feed := hfeed
  length_eq := hlength

/-- Arrows that share no id can be glued if their numbers of terminals fit. -/
theorem IsArrow.exists_welds (hf : f.IsArrow) (hg : g.IsArrow)
    (hapart : ∀ k, f.contains k = true → g.contains k = false) (hfit : f.target = g.source) :
    ∃ ps, f.feeders = .ok ps ∧ Welds f ps g := by
  obtain ⟨ps, hps, hfeed⟩ := feeders_eq_ok hf.positive
    fun o ho => (hf.output ho).2.2
  have hlength := congrArg List.length hfeed
  rw [List.length_map, List.length_map] at hlength
  exact ⟨ps, hps, hf.welds hg hapart hfeed (hlength.symm.trans hfit)⟩

theorem Welds.isArrow (hw : Welds f ps g) (hf : f.IsArrow) (hg : g.IsArrow) :
    (f.weld ps g).IsArrow := by
  refine isArrow_iff.2 ⟨hw.coherent, ?_, hg.nodup_outputs, fun i hi => ?_, fun o ho => ?_⟩
  · rw [hw.inputs_weld]
    exact hf.nodup_inputs
  · rw [hw.inputs_weld] at hi
    obtain ⟨hc, habove, hbelow⟩ := hf.input hi
    have hout := hf.not_mem_outputs hi
    have hperm := hw.above_left hc hout
    rw [habove, List.perm_nil] at hperm
    exact ⟨hw.contains_weld.2 (.inl ⟨hc, hout⟩), hperm,
      by rw [hw.length_below_left hc hout, hbelow]⟩
  · obtain ⟨hc, hbelow, habove⟩ := hg.output ho
    have hin : o ∉ g.inputs := fun hin => hg.not_mem_outputs hin ho
    have hperm := hw.below_right hc
    rw [hbelow, List.perm_nil] at hperm
    exact ⟨hw.contains_weld.2 (.inr hc), hperm, by rw [(hw.above_right hc hin).length_eq, habove]⟩

end Wiring.Diagram
