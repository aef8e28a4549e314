import Mathlib.Logic.Relation
import Wiring.Proofs.Circuit.FoldMeaning

/-!
# Reductions

What folding and pruning have in common: the outputs stay, inputs may go, nothing that matters for
evaluation gets lost, and the values at the outputs are the same. This is a preorder, so it holds of
every run of rules.

## Main definitions

- `Circuit.Reduces` — a circuit and what it may be reduced to

## Main statements

- `Circuit.Folds.reduces` — folds reduce
- `Circuit.Reduces.value_eq`, `Circuit.Reduces.truth_eq` — the outputs keep their values
-/

namespace Wiring

open scoped Unlimited

namespace Circuit

variable {g h h' : Circuit}

/-- **A reduction** of a lax circuit. -/
structure Reduces (g h : Circuit) : Prop where
  lax : h.Lax
  outputs_eq : h.outputs = g.outputs
  inputs_sublist : h.inputs.Sublist g.inputs
  grounded : g.Grounded → h.Grounded
  plainInputs : g.PlainInputs → h.PlainInputs
  label_input : g.PlainInputs → ∀ i ∈ h.inputs, h.label? i = g.label? i
  givesNeutral : ∀ {β : Type} {bit : Bool → β} {σ : Nat → β},
    GivesNeutral bit g σ → GivesNeutral bit h σ
  settles : ∀ {β : Type} [Inhabited β] {sem : Gate → List β → β} {bit : Bool → β},
    Gate.Lawful sem bit → ∀ σ ν, GivesNeutral bit g σ → Settles sem g σ ν →
      ∃ ν', Settles sem h σ ν' ∧ ∀ o ∈ g.outputs, ν' o = ν o
  potential_le : h.potential ≤ g.potential

theorem Reduces.refl (hg : g.Lax) : Reduces g g where
  lax := hg
  outputs_eq := rfl
  inputs_sublist := List.Sublist.refl _
  grounded := id
  plainInputs := id
  label_input _ _ _ := rfl
  givesNeutral := id
  settles _ _ ν _ hν := ⟨ν, hν, fun _ _ => rfl⟩
  potential_le := Nat.le_refl _

theorem Reduces.trans (hgh : Reduces g h) (hhh' : Reduces h h') : Reduces g h' where
  lax := hhh'.lax
  outputs_eq := hhh'.outputs_eq.trans hgh.outputs_eq
  inputs_sublist := hhh'.inputs_sublist.trans hgh.inputs_sublist
  grounded hg := hhh'.grounded (hgh.grounded hg)
  plainInputs hg := hhh'.plainInputs (hgh.plainInputs hg)
  label_input hg i hi := by
    rw [hhh'.label_input (hgh.plainInputs hg) i hi]
    exact hgh.label_input hg i (hhh'.inputs_sublist.subset hi)
  givesNeutral hσ := hhh'.givesNeutral (hgh.givesNeutral hσ)
  settles hsem σ ν hσ hν := by
    obtain ⟨ν', hν', heq⟩ := hgh.settles hsem σ ν hσ hν
    obtain ⟨ν'', hν'', heq'⟩ := hhh'.settles hsem σ ν' (hgh.givesNeutral hσ) hν'
    refine ⟨ν'', hν'', fun o ho => (heq' o ?_).trans (heq o ho)⟩
    rwa [hgh.outputs_eq]
  potential_le := hhh'.potential_le.trans hgh.potential_le

/-! ## Values at the outputs -/

/-- The outputs keep their values, whatever gates mean. -/
theorem Reduces.value_eq {β : Type} [Inhabited β] {sem : Gate → List β → β} {bit : Bool → β}
    {σ : Nat → β} (hr : Reduces g h) (hsem : Gate.Lawful sem bit) (hg : g.Lax)
    (hσ : GivesNeutral bit g σ) {o : Nat} (ho : o ∈ g.outputs) :
    value sem h σ o = value sem g σ o := by
  obtain ⟨ν, hν, heq⟩ := hr.settles hsem σ _ hσ (settles_value hg.coherent hg.acyclic)
  have hoh : h.contains o = true := hr.lax.contains_of_mem_outputs (by rwa [hr.outputs_eq])
  rw [hν.eq_value hr.lax.coherent hr.lax.acyclic hoh]
  exact heq o ho

/-- The outputs keep their values, as far as these are known. -/
theorem Reduces.kleene_eq {σ : Nat → Option Bool} (hr : Reduces g h) (hg : g.Lax)
    (hσ : GivesNeutral some g σ) {o : Nat} (ho : o ∈ g.outputs) : kleene h σ o = kleene g σ o :=
  hr.value_eq Gate.lawful_kleene hg hσ ho

/-- The outputs keep their Boolean values, if the inputs that are left and carry no constant are
    given what they were given before. -/
theorem Reduces.truth_eq (hr : Reduces g h) (hg : g.Lax) (hp : g.PlainInputs) {ρ ρ' : Nat → Bool}
    (hρ : ∀ i ∈ h.inputs, (∀ v, h.label? i ≠ some (.const v)) → ρ' i = ρ i) {o : Nat}
    (ho : o ∈ g.outputs) : truth h ρ' o = truth g ρ o := by
  have hog := hg.contains_of_mem_outputs ho
  have hoh : h.contains o = true := hr.lax.contains_of_mem_outputs (by rwa [hr.outputs_eq])
  have hsame : truth h ρ' o = truth h ρ o :=
    value_congr hr.lax.coherent hr.lax.acyclic hρ hoh
  have hkleene : kleene h (fun i => some (ρ i)) o = kleene g (fun i => some (ρ i)) o :=
    hr.kleene_eq hg hp.givesNeutral ho
  rw [hr.lax.kleene_some ρ hoh, hg.kleene_some ρ hog, Option.some.injEq] at hkleene
  rw [hsame, hkleene]

/-! ## Folds -/

theorem Folds.reduces (hfold : Folds g h) (hg : g.Lax) :
    Reduces g h ∧ (g.Tight → h.Tight) ∧ h.potential < g.potential := by
  obtain ⟨T, hr⟩ := hfold.reshapes hg
  refine ⟨?_, hr.tight hg, hr.potential_lt⟩
  exact
    { lax := hr.lax hg
      outputs_eq := hr.outputs_eq
      inputs_sublist := hr.inputs_sublist
      grounded := hr.grounded
      plainInputs := hr.plainInputs hg
      label_input := fun hp _ hi => hr.label_input hg hp hi
      givesNeutral := fun hσ => hr.givesNeutral hg hσ
      settles := fun hsem _ _ hσ hν => Folds.settles hsem hfold hg hσ hν
      potential_le := Nat.le_of_lt hr.potential_lt }

/-- **Any number of folds reduces.** -/
theorem reduces_of_transGen (hfolds : Relation.TransGen Folds g h) (hg : g.Lax) :
    Reduces g h ∧ (g.Tight → h.Tight) ∧ h.potential < g.potential := by
  induction hfolds with
  | single hfold => exact hfold.reduces hg
  | tail _ hfold ih =>
    obtain ⟨hr, htight, hlt⟩ := ih
    obtain ⟨hr', htight', hlt'⟩ := hfold.reduces hr.lax
    exact ⟨hr.trans hr', fun ht => htight' (htight ht), hlt'.trans hlt⟩

end Circuit

end Wiring
