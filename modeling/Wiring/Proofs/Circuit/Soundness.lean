import Wiring.Circuit.Basic
import Wiring.Proofs.Diagram.Ranking
import Wiring.Proofs.Diagram.Validity
import Wiring.Proofs.Words.Degrees

/-!
# Sound circuits

A sound circuit passes the check, has nothing to hide that the check does not look at, and can
give out new ids. Most of this survives every single change that folding and pruning make. What
may be lost for a while is that inputs and gates have a result at all, so soundness is split into
a lax part and the rest.

## Main definitions

- `Circuit.Sound` — well formed, with fresh ids, positive counts and no repeated terminals
- `Circuit.Lax` — the same, except that inputs and gates may have lost their result
- `Circuit.Tight` — they have not
- `Circuit.Grounded` — constants have no parents
- `Circuit.PlainInputs` — no input carries the label of a variadic gate

## Main statements

- `Circuit.sound_iff` — a circuit is sound if it is lax and tight
-/

namespace Wiring

open scoped Unlimited

/-- The numbers of edges in and out that a gate may have. -/
def Gate.Allows : Gate → Nat → Nat → Prop
  | .copy, ins, _ => ins = 1
  | .not, ins, outs => ins = 1 ∧ outs ≤ 1
  | .and, _, outs | .or, _, outs | .xor, _, outs => outs ≤ 1
  | .const _, _, _ => True
  | .free _, _, _ => False

/-- Whether a gate has to have a result. -/
def Gate.hasResult : Gate → Bool
  | .not | .and | .or | .xor => true
  | _ => false

namespace Circuit

variable {g : Circuit} {k : Nat}

/-- **A sound circuit**: it passes the check, its next id is fresh, no edge is counted zero times
    and no terminal is listed twice. -/
structure Sound [Words] (g : Circuit) : Prop where
  isWellFormed : Circuit.isWellFormed g = true
  idsBelow : g.IdsBelow
  positive : g.Positive
  nodup_inputs : g.inputs.Nodup
  nodup_outputs : g.outputs.Nodup

/-- **What folding and pruning never break**: soundness, except that an input, a negation or a
    variadic gate may be without a result. -/
structure Lax (g : Circuit) : Prop where
  coherent : g.Coherent
  idsBelow : g.IdsBelow
  nodup_inputs : g.inputs.Nodup
  nodup_outputs : g.outputs.Nodup
  input : ∀ i ∈ g.inputs, g.contains i = true ∧ g.above i = [] ∧ (g.below i).length ≤ 1
  output : ∀ o ∈ g.outputs, g.contains o = true ∧ g.below o = [] ∧ (g.above o).length = 1
  acyclic : g.Acyclic
  gate : ∀ k label, g.label? k = some label → k ∉ g.inputs → k ∉ g.outputs →
    label.Allows (g.above k).length (g.below k).length

/-- Whatever must have a result has one. -/
def Tight (g : Circuit) : Prop :=
  ∀ k label, g.label? k = some label → k ∉ g.outputs → k ∈ g.inputs ∨ label.hasResult = true →
    g.below k ≠ []

/-- No constant has parents, outputs apart. -/
def Grounded (g : Circuit) : Prop :=
  ∀ k v, g.label? k = some (.const v) → k ∉ g.outputs → g.above k = []

/-- No input carries the label of a variadic gate. -/
def PlainInputs (g : Circuit) : Prop :=
  ∀ i ∈ g.inputs, ∀ label, g.label? i = some label → label.isVariadic = false

/-- Words that hold the degrees make no difference. -/
theorem sound_iff_of_degreesHold [Words] (h : g.DegreesHold) :
    g.Sound ↔ letI := Unlimited.words; g.Sound := by
  constructor
  · rintro ⟨hwf, hids, hpositive, hnodup, hnodup'⟩
    rw [isWellFormed_eq h] at hwf
    exact @Sound.mk Unlimited.words _ hwf hids hpositive hnodup hnodup'
  · rintro ⟨hwf, hids, hpositive, hnodup, hnodup'⟩
    rw [← isWellFormed_eq h] at hwf
    exact ⟨hwf, hids, hpositive, hnodup, hnodup'⟩

theorem gateOk_iff {n : Node Gate} : gateOk n = true ↔
    n.label.Allows n.indegree n.outdegree ∧ (n.label.hasResult = true → n.outdegree ≠ 0) := by
  unfold gateOk
  cases n.label <;> simp [Gate.Allows, Gate.hasResult] <;> omega

theorem isWellFormed_iff (hpos : g.Positive) : Circuit.isWellFormed g = true ↔
    Diagram.isWellFormed g = true ∧ g.Acyclic ∧
      ∀ k label, g.label? k = some label → k ∉ g.inputs → k ∉ g.outputs →
        label.Allows (g.above k).length (g.below k).length ∧
          (label.hasResult = true → g.below k ≠ []) := by
  rw [Circuit.isWellFormed, Bool.and_eq_true, Bool.and_eq_true, and_assoc]
  apply and_congr_right
  intro hdiag
  have hg := ((Diagram.isWellFormed_iff hpos).1 hdiag).2.2
  refine and_congr ?_ ?_
  · rw [← hg.isAcyclic_iff]
    cases g.isAcyclic <;> simp
  · simp only [List.all_eq_true, IdMap.mem_values_iff, Bool.or_eq_true, gateOk_iff]
    constructor
    · intro h k label hlabel hin hout
      obtain ⟨n, hn, rfl⟩ := Option.map_eq_some_iff.1 hlabel
      have hterm : g.isTerminal n.id = false := by
        simp [Diagram.isTerminal, Diagram.isInput, Diagram.isOutput, hg.id_eq k n hn, hin, hout]
      have hok := (h n ⟨k, hn⟩).resolve_left (by simp [hterm])
      rw [Diagram.length_above_of_node? hn, Diagram.length_below_of_node? hn, ne_eq,
        Diagram.below_eq_nil_iff hn]
      exact hok
    · rintro h n ⟨k, hnode⟩
      have hn : g.node? k = some n := hnode
      by_cases hterm : g.isTerminal n.id = true
      · exact .inl hterm
      · simp only [Diagram.isTerminal, Diagram.isInput, Diagram.isOutput, hg.id_eq k n hn,
          Bool.or_eq_true, List.contains_iff_mem, not_or] at hterm
        have hok := h k n.label (by rw [Diagram.label?, hn]; rfl) hterm.1 hterm.2
        rw [Diagram.length_above_of_node? hn, Diagram.length_below_of_node? hn, ne_eq,
          Diagram.below_eq_nil_iff hn] at hok
        exact .inr hok

/-- **Soundness in two parts.** -/
theorem sound_iff : g.Sound ↔ g.Lax ∧ g.Tight := by
  constructor
  · intro h
    obtain ⟨hdiag, hacyclic, hgate⟩ := (isWellFormed_iff h.positive).1 h.isWellFormed
    obtain ⟨hin, hout, hg⟩ := (Diagram.isWellFormed_iff h.positive).1 hdiag
    refine ⟨⟨hg, h.idsBelow, h.nodup_inputs, h.nodup_outputs, ?_, hout, hacyclic,
      fun k label hk hi ho => (hgate k label hk hi ho).1⟩, ?_⟩
    · intro i hi
      obtain ⟨hc, ha, hb⟩ := hin i hi
      exact ⟨hc, ha, Nat.le_of_eq hb⟩
    · intro k label hk ho hres
      by_cases hi : k ∈ g.inputs
      · rw [← List.length_pos_iff, (hin k hi).2.2]
        exact Nat.one_pos
      · exact (hgate k label hk hi ho).2 (hres.resolve_left hi)
  · rintro ⟨h, ht⟩
    have hin : ∀ i ∈ g.inputs,
        g.contains i = true ∧ g.above i = [] ∧ (g.below i).length = 1 := by
      intro i hi
      obtain ⟨hc, ha, hb⟩ := h.input i hi
      obtain ⟨label, hl⟩ := Diagram.contains_iff_label?.1 hc
      have hout : i ∉ g.outputs := fun ho => by
        have := (h.output i ho).2.2
        rw [ha] at this
        simp at this
      have := List.length_pos_iff.2 (ht i label hl hout (.inl hi))
      exact ⟨hc, ha, by omega⟩
    refine ⟨(isWellFormed_iff h.coherent.positive).2
      ⟨(Diagram.isWellFormed_iff h.coherent.positive).2 ⟨hin, h.output, h.coherent⟩, h.acyclic,
        fun k label hk hi ho => ⟨h.gate k label hk hi ho, ?_⟩⟩,
      h.idsBelow, h.coherent.positive, h.nodup_inputs, h.nodup_outputs⟩
    intro hres
    exact ht k label hk ho (.inr hres)

theorem Sound.lax (h : g.Sound) : g.Lax := (sound_iff.1 h).1

theorem Sound.tight (h : g.Sound) : g.Tight := (sound_iff.1 h).2

namespace Lax

theorem contains_of_mem_inputs (h : g.Lax) (hk : k ∈ g.inputs) : g.contains k = true :=
  (h.input k hk).1

theorem contains_of_mem_outputs (h : g.Lax) (hk : k ∈ g.outputs) : g.contains k = true :=
  (h.output k hk).1

theorem not_mem_inputs (h : g.Lax) (hk : g.above k ≠ []) : k ∉ g.inputs :=
  fun hi => hk (h.input k hi).2.1

theorem not_mem_outputs (h : g.Lax) (hk : g.below k ≠ []) : k ∉ g.outputs :=
  fun ho => hk (h.output k ho).2.1

theorem not_mem_inputs_of_output (h : g.Lax) (hk : k ∈ g.outputs) : k ∉ g.inputs := by
  apply h.not_mem_inputs
  intro hnil
  have := (h.output k hk).2.2
  rw [hnil] at this
  simp at this

theorem child_removeNode {i t : Nat} (h : g.Lax) (ht : t ∈ g.below i) :
    (Diagram.removeNode g i).contains t = true ∧ t ∉ (Diagram.removeNode g i).inputs :=
  Diagram.child_removeNode h.coherent h.acyclic (fun i hi => (h.input i hi).2.1) ht

theorem not_mem_outputs_of_input (h : g.Lax) (hk : k ∈ g.inputs) : k ∉ g.outputs :=
  fun ho => h.not_mem_inputs_of_output ho hk

end Lax

/-! ## Deciding soundness -/

instance [Words] (g : Circuit) : Decidable g.Sound :=
  decidable_of_iff (Circuit.isWellFormed g = true ∧ Diagram.IdsBelow g ∧ Diagram.Positive g ∧
    g.inputs.Nodup ∧ g.outputs.Nodup)
    ⟨fun ⟨h₁, h₂, h₃, h₄, h₅⟩ => ⟨h₁, h₂, h₃, h₄, h₅⟩,
      fun h => ⟨h.1, h.2, h.3, h.4, h.5⟩⟩

instance (g : Circuit) : Decidable g.Grounded :=
  decidable_of_iff (∀ k ∈ g.ids, ∀ v, g.label? k = some (.const v) → k ∉ g.outputs → g.above k = [])
    ⟨fun h k v hl => h k (Diagram.mem_ids.2 (Diagram.contains_iff_label?.2 ⟨_, hl⟩)) v hl,
      fun h k _ => h k⟩

instance (g : Circuit) : Decidable g.PlainInputs :=
  decidable_of_iff (∀ i ∈ g.inputs, ((g.label? i).all fun label => !label.isVariadic) = true) <| by
    apply forall₂_congr
    intro i _
    cases g.label? i <;> simp

end Circuit

end Wiring
