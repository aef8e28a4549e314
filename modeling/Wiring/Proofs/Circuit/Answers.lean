import Wiring.Proofs.Circuit.Reading
import Wiring.Proofs.Words.Evaluation

/-!
# What an answer says about inputs without a constant

Whatever the limit on passes, an answer holds for all values that the inputs without a constant may
have: the bits are constants of the circuit that is left, and folding has changed no output. There
is one exception. Folding takes an input that is labelled like a variadic gate for a gate without
arguments, which has the neutral value, though nothing is known of such an input either.

## Main definitions

- `Circuit.takenFor` — the values that folding reckons with when it is given values for the inputs

## Main statements

- `Circuit.Lax.kleene_of_outputBit` — the bit of an output is its value, whatever the inputs are
- `Circuit.answers_hold_for_unknown_inputs` — what an answer says
-/

namespace Wiring

open scoped Unlimited

namespace Circuit

variable {g : Circuit} {limit : Option Nat} {bits : String} {o : Nat} {ρ : Nat → Bool}

/-- The values `ρ`, except that an input labelled like a variadic gate has the neutral value of
    that gate. -/
def takenFor (g : Circuit) (ρ : Nat → Bool) (i : Nat) : Bool :=
  ((g.label? i).bind Gate.neutral?).getD (ρ i)

theorem givesNeutral_takenFor (g : Circuit) (ρ : Nat → Bool) :
    GivesNeutral some g fun i => some (takenFor g ρ i) := by
  intro i _ label v hl hv
  have hneutral : (g.label? i).bind Gate.neutral? = some v := by rw [hl, Option.bind_some, hv]
  show some (takenFor g ρ i) = some v
  rw [takenFor, hneutral, Option.getD_some]

/-- An output that shows a bit is fed by a constant, and this is its value whatever is known of the
    inputs. -/
theorem Lax.kleene_of_outputBit {c : Char} (hg : g.Lax) (ho : o ∈ g.outputs)
    (h : outputBit g o = .ok c) : ∃ v, c = bitChar v ∧ ∀ σ, kleene g σ o = some v := by
  obtain ⟨hog, -, -⟩ := hg.output o ho
  obtain ⟨v, rfl, p, hs⟩ := (outputBit_eq_ok_iff hg.coherent.positive ho).1 h
  have hop : o ∈ g.below p := hs.mem_below hg.coherent
  refine ⟨v, rfl, fun σ => ?_⟩
  have hsettles : Settles Gate.kleene g σ (kleene g σ) := settles_value hg.coherent hg.acyclic
  calc kleene g σ o = Gate.sole ((g.above o).map (kleene g σ)) :=
        (hsettles o hog).trans (nodeValue_output ho)
    _ = kleene g σ p := by rw [hs.above]; rfl
    _ = nodeValue Gate.kleene g σ (kleene g σ) p :=
        hsettles p (Diagram.contains_of_mem_below hop)
    _ = some v := nodeValue_gate hs.label (hg.not_mem_outputs (List.ne_nil_of_mem hop)) (.inr rfl)

/-- The bits that are shown are the Boolean values, for all values of the inputs that a reduction
    respects. -/
theorem Reduces.outputBits_eq {h : Circuit} (hr : Reduces g h) (hg : g.Lax)
    (hρ : GivesNeutral some g fun i => some (ρ i)) (hbits : outputBits h = .ok bits) :
    bits = String.ofList (g.outputs.map fun o => bitChar (truth g ρ o)) := by
  rw [outputBits, bind_eq_ok_iff] at hbits
  obtain ⟨cs, hmapM, hcs⟩ := hbits
  -- what an output shows was its value before the reduction already
  have hall : cs = h.outputs.map fun o => bitChar (truth g ρ o) := by
    refine eq_map_of_mapM_eq_ok hmapM fun o ho c hc => ?_
    obtain ⟨v, rfl, hv⟩ := hr.lax.kleene_of_outputBit ho hc
    rw [hr.outputs_eq] at ho
    have hkleene := hr.kleene_eq hg hρ ho
    rw [hv, hg.kleene_some ρ (hg.contains_of_mem_outputs ho), Option.some.injEq] at hkleene
    rw [hkleene]
  rw [← Except.ok.inj hcs, hall, hr.outputs_eq]

theorem Sound.answer_eq (hg : g.Sound) (hρ : GivesNeutral some g fun i => some (ρ i))
    (h : evaluateWithin limit g = .ok bits) :
    bits = String.ofList (g.outputs.map fun o => bitChar (truth g ρ o)) := by
  obtain ⟨passes, left, hrun, hr, -⟩ := hg.runsTo_normalize limit
  rw [evaluateWithin, hrun] at h
  exact hr.outputBits_eq hg.lax hρ h

/-- **An answer holds for all values of the inputs without a constant**, within any limit, as long
    as those that are labelled like a variadic gate are taken for the neutral value of the gate. So
    nothing is made up if no input has such a label. Words have to have room for evaluation. -/
theorem answers_hold_for_unknown_inputs [Words] (hg : g.Sound) (hroom : g.HasRoom)
    (h : evaluateWithin limit g = .ok bits) :
    (∀ ρ, bits = String.ofList (g.outputs.map fun o => bitChar (truth g (takenFor g ρ) o))) ∧
    (g.PlainInputs → ∀ ρ,
      bits = String.ofList (g.outputs.map fun o => bitChar (truth g ρ o))) := by
  obtain ⟨hg, haffords⟩ := hroom.sound hg
  rw [haffords.evaluateWithin_eq] at h
  exact ⟨fun ρ => hg.answer_eq (givesNeutral_takenFor g ρ) h,
    fun hp _ => hg.answer_eq hp.givesNeutral h⟩

/-- An output fed by an input that is labelled like a conjunction. -/
def lookalike : Circuit :=
  Diagram.ofNodes [0] [1] [.ofEdges 0 .and [] [(1, 1)], .ofEdges 1 .copy [(0, 1)] []]

section Machine

open scoped Machine

/-- The input of `lookalike` is taken for an empty conjunction, and its output said to be true
    though it would be false if the input was. The false argument of a conjunction settles it
    whatever the free one is. -/
theorem answers_hold_for_unknown_inputs_lookalike :
    (Sound lookalike ∧ evaluate lookalike = .ok "1" ∧
      (∀ ρ, "1" = String.ofList
        (lookalike.outputs.map fun o => bitChar (truth lookalike (takenFor lookalike ρ) o))) ∧
      lookalike.outputs.map (truth lookalike fun _ => false) = [false]) ∧
    Sound (conjunction false) ∧ PlainInputs (conjunction false) ∧
      ∀ ρ, "0" = String.ofList
        ((conjunction false).outputs.map fun o => bitChar (truth (conjunction false) ρ o)) := by
  have hsound : Sound lookalike := by decide +kernel
  have hsound' : Sound (conjunction false) := by decide +kernel
  have hplain : PlainInputs (conjunction false) := by decide +kernel
  have hanswer : evaluate lookalike = .ok "1" := by
    rw [evaluate_of_lt (n := 2) (p := 1) (by decide +kernel) (by decide +kernel) (by decide)]
    decide +kernel
  have hanswer' : evaluateWithin (some 3) (conjunction false) = .ok "0" := by decide +kernel
  have hroom : HasRoom lookalike := by decide +kernel
  have hroom' : HasRoom (conjunction false) := by decide +kernel
  exact
    ⟨⟨hsound, hanswer, (answers_hold_for_unknown_inputs hsound hroom hanswer).1,
        by decide +kernel⟩,
      hsound', hplain, (answers_hold_for_unknown_inputs hsound' hroom' hanswer').2 hplain⟩

end Machine

end Circuit

end Wiring
