import Wiring.Proofs.Circuit.Reading
import Wiring.Proofs.Words.Evaluation

/-!
# Evaluation is the three-valued reading

Where constants have no arguments, or have outputs only for children, there is no difference between
values that gates can use and values that outputs can show. Then evaluation finds exactly what is
known by three-valued logic, and if all inputs are constants then everything is known. Elsewhere a
gate may wait in vain, and the output that it feeds has no value.

## Main definitions

- `Circuit.known` — what three-valued logic knows of a circuit
- `Circuit.WeaklyGrounded` — constants with arguments feed outputs only

## Main statements

- `Circuit.Lax.known_of_bit?_reading`, `Circuit.Lax.bit?_reading` — what is read is known, and where
  constants with arguments feed outputs only it is all that is known
- `Circuit.evaluate_three_valued` — what evaluation answers
- `Circuit.evaluation_of_valued_circuits` — what it answers if all inputs are constants
-/

namespace Wiring

open scoped Unlimited

namespace Circuit

variable {g : Circuit} {k o u : Nat} {v : Bool} {label : Gate}

/-- The values of nodes that are known when nothing is given for inputs without a constant. -/
def known (g : Circuit) : Nat → Option Bool := kleene g fun _ => none

/-- A constant with arguments has outputs only for children, outputs apart. -/
def WeaklyGrounded (g : Circuit) : Prop :=
  ∀ k v, g.label? k = some (.const v) → k ∉ g.outputs → g.above k ≠ [] →
    ∀ c ∈ g.below k, c ∈ g.outputs

instance (g : Circuit) : Decidable g.WeaklyGrounded :=
  decidable_of_iff (∀ k ∈ g.ids, ∀ v, g.label? k = some (.const v) → k ∉ g.outputs →
      g.above k ≠ [] → ∀ c ∈ g.below k, c ∈ g.outputs)
    ⟨fun h k v hl => h k (Diagram.mem_ids.2 (Diagram.contains_iff_label?.2 ⟨_, hl⟩)) v hl,
      fun h k _ => h k⟩

theorem Grounded.weakly (h : g.Grounded) : g.WeaklyGrounded :=
  fun k v hk hout hne => absurd (h k v hk hout) hne

/-! ## What is read is what is known -/

/-- An output has the bit of its parent, and a gate makes its bit of the values it can use. -/
theorem Lax.bit?_eq_nodeValue (hg : g.Lax) (hk : g.contains k = true) :
    (reading g k).bit? = nodeValue Gate.kleene g (fun _ => none)
      (fun u => if k ∈ g.outputs then (reading g u).bit? else (reading g u).usable?) k := by
  by_cases hout : k ∈ g.outputs
  · obtain ⟨p, hp⟩ := List.length_eq_one_iff.1 (hg.output k hout).2.2
    simp only [if_pos hout]
    rw [nodeValue_output hout, hg.reading_output hout hp, hp]
    rfl
  · obtain ⟨label, hl⟩ := Diagram.contains_iff_label?.1 hk
    simp only [if_neg hout]
    cases hv : label.value? with
    | some w =>
      rw [value?_eq_some_iff.1 hv] at hl
      rw [nodeValue_gate hl hout (.inr rfl), hg.reading_const hl hout]
      split <;> rfl
    | none =>
      rw [hg.settles_reading k hk]
      by_cases hin : k ∈ g.inputs
      · rw [nodeValue_input hl hout hin hv, nodeValue_input hl hout hin hv]
        rfl
      · rw [nodeValue_gate hl hout (.inl hin), nodeValue_gate hl hout (.inl hin),
          Gate.reading_of_value?_eq_none hv, Reading.bit?_ofOption, List.map_map]
        rfl

/-- **Nothing is read but what is known.** -/
theorem Lax.known_of_bit?_reading (hg : g.Lax) (hk : g.contains k = true)
    (h : (reading g k).bit? = some v) : known g k = some v := by
  obtain ⟨r, hr⟩ := hg.acyclic
  induction hrank : r k using Nat.strongRecOn generalizing k v with
  | ind rank ih =>
    have hnode : known g k = nodeValue Gate.kleene g (fun _ => none) (known g) k :=
      settles_value hg.coherent hg.acyclic k hk
    rw [hg.bit?_eq_nodeValue hk] at h
    rw [hnode]
    refine nodeValue_mono (fun u hu w hw => ?_) h
    have hbit : (reading g u).bit? = some w := by
      split at hw
      · exact hw
      · exact Reading.bit?_of_usable? hw
    exact ih (r u) (hrank ▸ hr u k hu) (hg.coherent.contains_of_mem_above hu) hbit rfl

section WeaklyGrounded

variable (hg : g.Lax) (hground : g.WeaklyGrounded)
include hg hground

/-- Whatever is read of an argument can be used. -/
theorem Lax.usable?_reading (hu : u ∈ g.above k) (hout : k ∉ g.outputs) :
    (reading g u).usable? = (reading g u).bit? := by
  have hku : k ∈ g.below u := hg.coherent.mem_above_iff.1 hu
  have huout : u ∉ g.outputs := hg.not_mem_outputs (List.ne_nil_of_mem hku)
  have hug := hg.coherent.contains_of_mem_above hu
  obtain ⟨label, hl⟩ := Diagram.contains_iff_label?.1 hug
  cases hv : label.value? with
  | some w =>
    rw [value?_eq_some_iff.1 hv] at hl
    have habove : g.above u = [] := by
      by_contra hne
      exact hout (hground u w hl huout hne k hku)
    rw [hg.reading_const hl huout, if_pos habove]
    rfl
  | none =>
    rw [hg.settles_reading u hug]
    by_cases hin : u ∈ g.inputs
    · rw [nodeValue_input hl huout hin hv]
      rfl
    · rw [nodeValue_gate hl huout (.inl hin), Gate.reading_of_value?_eq_none hv,
        Reading.usable?_ofOption, Reading.bit?_ofOption]

/-- **What is read is what is known.** -/
theorem Lax.bit?_reading (hk : g.contains k = true) : (reading g k).bit? = known g k := by
  have hsettles : Settles Gate.kleene g (fun _ => none) fun k => (reading g k).bit? := by
    intro k hk
    show (reading g k).bit? = _
    rw [hg.bit?_eq_nodeValue hk]
    refine nodeValue_congr (fun u hu => ?_) fun _ _ => rfl
    split
    · rfl
    · rename_i hout
      exact hg.usable?_reading hground hu hout
  exact (hsettles.eq_value hg.coherent hg.acyclic hk).symm

end WeaklyGrounded

/-! ## Evaluation -/

/-- Evaluation reads the known bits off, one output after the other. -/
theorem Sound.evaluate_eq (hg : g.Sound) (hground : g.WeaklyGrounded) (hp : g.PlainInputs) :
    evaluate g = (g.outputs.mapM (bitOrFault (known g)) >>=
      fun bits => .ok (String.ofList bits)) := by
  have hbit (o : Nat) (ho : o ∈ g.outputs) :
      bitOrFault (fun o => (reading g o).bit?) o = bitOrFault (known g) o := by
    rw [bitOrFault, bitOrFault, hg.lax.bit?_reading hground (hg.lax.contains_of_mem_outputs ho)]
  rw [hg.evaluate_eq_reading hp, mapM_congr hbit]

theorem PlainInputs.of_valued (h : ∀ i ∈ g.inputs, ∃ v, g.label? i = some (.const v)) :
    g.PlainInputs := by
  intro i hi label hl
  obtain ⟨v, hv⟩ := h i hi
  obtain rfl : label = .const v := Option.some.inj (hl.symm.trans hv)
  rfl

section Valued

variable (hg : g.Sound) (hvalued : ∀ i ∈ g.inputs, ∃ v, g.label? i = some (.const v))
  (ρ : Nat → Bool)
include hg hvalued

/-- In a circuit whose inputs are all constants everything is known. -/
theorem Sound.known_eq_truth (hk : g.contains k = true) : known g k = some (truth g ρ k) := by
  rw [← hg.lax.kleene_some ρ hk]
  refine value_congr hg.lax.coherent hg.lax.acyclic ?_ hk
  intro i hi hfree
  obtain ⟨v, hv⟩ := hvalued i hi
  exact absurd hv (hfree v)

/-- Where constants with arguments feed outputs only, something is read of every node. -/
theorem Sound.reading_ne_unknown (hground : g.WeaklyGrounded) (hk : g.contains k = true) :
    reading g k ≠ .unknown := by
  intro hunknown
  have hbit := hg.lax.bit?_reading hground hk
  rw [hg.known_eq_truth hvalued (fun _ => false) hk, hunknown] at hbit
  cases hbit

/-- If something is read at every output then evaluation answers the Boolean values. -/
theorem Sound.evaluate_read (hread : ∀ o ∈ g.outputs, reading g o ≠ .unknown) :
    evaluate g = .ok (String.ofList (g.outputs.map fun o => bitChar (truth g ρ o))) := by
  have hbit (o : Nat) (ho : o ∈ g.outputs) : (reading g o).bit? = some (truth g ρ o) := by
    have hog := hg.lax.contains_of_mem_outputs ho
    obtain ⟨v, hv⟩ := Option.ne_none_iff_exists'.1 fun hnone =>
      hread o ho (Reading.bit?_eq_none.1 hnone)
    -- what is read is known, and with constants at the inputs this is the Boolean value
    rw [hv, ← hg.lax.known_of_bit?_reading hog hv, hg.known_eq_truth hvalued ρ hog]
  have hbits : (g.outputs.map fun o => (reading g o).bit?) =
      (g.outputs.map (truth g ρ)).map some := by
    rw [List.map_map]
    exact List.map_congr_left hbit
  rw [hg.evaluate_eq_reading (PlainInputs.of_valued hvalued), mapM_bitOrFault_eq_ok hbits,
    List.map_map]
  rfl

/-- A circuit whose inputs are all constants is evaluated to the Boolean values of its outputs. -/
theorem Sound.evaluate_valued (hground : g.WeaklyGrounded) :
    evaluate g = .ok (String.ofList (g.outputs.map fun o => bitChar (truth g ρ o))) :=
  hg.evaluate_read hvalued ρ fun _ ho =>
    hg.reading_ne_unknown hvalued hground (hg.lax.contains_of_mem_outputs ho)

end Valued

section Machine

open scoped Machine

end Machine

/-- **What evaluation answers if all inputs are constants.** If something is read at every output
    then it answers the Boolean values, and otherwise it names the first output at which nothing is
    read. Something is read everywhere if constants with arguments feed outputs only, but the check
    does not ask for that. Words have to have room for evaluation. -/
theorem evaluation_of_valued_circuits [Words] (hg : g.Sound) (hroom : g.HasRoom)
    (hvalued : ∀ i ∈ g.inputs, ∃ v, g.label? i = some (.const v)) :
    ((∀ o ∈ g.outputs, reading g o ≠ .unknown) → ∀ ρ,
      evaluate g = .ok (String.ofList (g.outputs.map fun o => bitChar (truth g ρ o)))) ∧
    (∀ before o after, g.outputs = before ++ o :: after →
      (∀ b ∈ before, reading g b ≠ .unknown) → reading g o = .unknown →
      evaluate g = .error (.unresolved o)) ∧
    (g.WeaklyGrounded → ∀ o ∈ g.outputs, reading g o ≠ .unknown) := by
  obtain ⟨hg, haffords⟩ := hroom.sound hg
  rw [haffords.evaluate_eq]
  refine ⟨fun hread ρ => hg.evaluate_read hvalued ρ hread, ?_, fun hground o ho =>
    hg.reading_ne_unknown hvalued hground (hg.lax.contains_of_mem_outputs ho)⟩
  intro before o after hsplit hbefore ho
  have hfirst (b : Nat) (hb : b ∈ before) : (reading g b).bit? ≠ none := fun hnone =>
    hbefore b hb (Reading.bit?_eq_none.1 hnone)
  have hlast : (reading g o).bit? = none := Reading.bit?_eq_none.2 ho
  rw [hg.evaluate_eq_reading (PlainInputs.of_valued hvalued), hsplit,
    mapM_bitOrFault_eq_error hfirst hlast]
  rfl

/-- A constant with an argument, below an input that is constant and above a negation. -/
def stranded : Circuit :=
  Diagram.ofNodes [0] [3]
    [.ofEdges 0 (.const true) [] [(1, 1)], .ofEdges 1 (.const false) [(0, 1)] [(2, 1)],
      .ofEdges 2 .not [(1, 1)] [(3, 1)], .ofEdges 3 .copy [(2, 1)] []]

/-- The same constants above an output. -/
def shown : Circuit :=
  Diagram.ofNodes [0] [2]
    [.ofEdges 0 (.const true) [] [(1, 1)], .ofEdges 1 (.const false) [(0, 1)] [(2, 1)],
      .ofEdges 2 .copy [(1, 1)] []]

section Machine

open scoped Machine

/-- The negation waits in vain, though the input is a constant, and the output shows its bit. -/
theorem evaluation_of_valued_circuits_stranded :
    (Sound stranded ∧ (∀ i ∈ stranded.inputs, ∃ v, stranded.label? i = some (.const v)) ∧
      evaluate stranded = .error (.unresolved 3)) ∧
    Sound shown ∧ (∀ i ∈ shown.inputs, ∃ v, shown.label? i = some (.const v)) ∧
      shown.WeaklyGrounded ∧ evaluate shown = .ok "0" := by
  have hsound : Sound stranded := by decide +kernel
  have hvalued : ∀ i ∈ stranded.inputs, ∃ v, stranded.label? i = some (.const v) := by
    decide +kernel
  have hsound' : Sound shown := by decide +kernel
  have hvalued' : ∀ i ∈ shown.inputs, ∃ v, shown.label? i = some (.const v) := by decide +kernel
  have hground : shown.WeaklyGrounded := by decide +kernel
  have hroom : HasRoom stranded := by decide +kernel
  have hroom' : HasRoom shown := by decide +kernel
  have hshown := evaluation_of_valued_circuits hsound' hroom' hvalued'
  exact
    ⟨⟨hsound, hvalued, (evaluation_of_valued_circuits hsound hroom hvalued).2.1 [] 3 [] rfl
        (by simp) (by decide +kernel)⟩,
      hsound', hvalued', hground, hshown.1 (hshown.2.2 hground) fun _ => false⟩

end Machine

end Circuit

end Wiring
