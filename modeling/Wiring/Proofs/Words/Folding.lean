import Wiring.Circuit.Evaluation
import Wiring.Proofs.Circuit.RuleRuns
import Wiring.Proofs.Words.Edits

/-!
# Folding within words

A rule asks for degrees and then makes at most one node for every edge at one node. If words have
room for three times that number, one for a node and two for its edges, then every rule does what it
does with words that hold every number.

## Main definitions

- `Diagram.Spacious` — room for what any one rule may need

## Main statements

- `Circuit.sources_eq`, `Circuit.emptyGates_eq` — what a pass looks for
- `Circuit.fire_eq` — the rules
-/

namespace Wiring

namespace Diagram

variable [Words] {α : Type} {g : Diagram α}

/-- **Room for a rule**: for three times as many ids and edges as there are into any node, or out of
    it. -/
def Spacious (g : Diagram α) : Prop :=
  ∀ k, g.Roomy (3 * (g.above k).length) ∧ g.Roomy (3 * (g.below k).length)

namespace Spacious

variable (h : g.Spacious)
include h

theorem degreesHold : g.DegreesHold := (h 0).1.degreesHold

theorem removeNode (i : Nat) : (g.removeNode i).Spacious := fun k =>
  ⟨((h k).1.mono (Nat.mul_le_mul_left 3 (Diagram.length_removeNode_le g i k).1)).removeNode i,
    ((h k).2.mono (Nat.mul_le_mul_left 3 (Diagram.length_removeNode_le g i k).2)).removeNode i⟩

theorem roomy_above (k : Nat) {m : Nat} (hm : m ≤ 3) : g.Roomy ((g.above k).length * m) :=
  (h k).1.mono (Nat.mul_comm _ 3 ▸ Nat.mul_le_mul_left _ hm)

theorem roomy_below (k : Nat) {m : Nat} (hm : m ≤ 3) : g.Roomy ((g.below k).length * m) :=
  (h k).2.mono (Nat.mul_comm _ 3 ▸ Nat.mul_le_mul_left _ hm)

end Spacious

end Diagram

namespace Circuit

open Diagram (DegreesHold Spacious)

variable [Words] {g : Circuit} {n : Node Gate} {s c k : Nat} {v : Bool}

/-! ## Questions -/

section Questions

variable (h : g.DegreesHold)
include h

theorem isSourceNode_eq (hn : n ∈ g.nodes.values) :
    isSourceNode n = letI := Unlimited.words; isSourceNode n := by
  unfold isSourceNode
  rw [h.indegree_eq hn]

theorem isSource_eq (s : Nat) : isSource g s = letI := Unlimited.words; isSource g s := by
  unfold isSource
  cases hs : g.node? s with
  | none => rfl
  | some n => exact isSourceNode_eq h (IdMap.mem_values_iff.2 ⟨s, hs⟩)

theorem feeds?_eq (s : Nat) : feeds? g s = letI := Unlimited.words; feeds? g s := by
  unfold feeds?
  cases hs : g.node? s with
  | none => rfl
  | some n =>
    simp only [Option.bind_eq_bind, Option.bind_some,
      h.indegree_eq (IdMap.mem_values_iff.2 ⟨s, hs⟩)]

theorem feedsKind?_eq (s : Nat) (kind : Gate → Bool) :
    feedsKind? g s kind = letI := Unlimited.words; feedsKind? g s kind := by
  unfold feedsKind?
  rw [feeds?_eq h]

theorem emptyValue?_eq (k : Nat) : emptyValue? g k = letI := Unlimited.words; emptyValue? g k := by
  unfold emptyValue?
  cases hk : g.node? k with
  | none => rfl
  | some n =>
    simp only [Option.bind_eq_bind, Option.bind_some,
      h.indegree_eq (IdMap.mem_values_iff.2 ⟨k, hk⟩)]

theorem fanOut?_eq (s : Nat) : fanOut? g s = letI := Unlimited.words; fanOut? g s := by
  unfold fanOut?
  cases hs : g.node? s with
  | none => rfl
  | some n =>
    have hn := IdMap.mem_values_iff.2 ⟨s, hs⟩
    simp only [Option.bind_eq_bind, Option.bind_some, h.indegree_eq hn, h.outdegree_eq hn]

/-- The sources that a pass looks for. -/
theorem sources_eq : sources g = letI := Unlimited.words; sources g := by
  unfold sources
  refine congrArg IdMap.keys (IdMap.ext fun k => ?_)
  rw [IdMap.get?_filter, IdMap.get?_filter]
  cases hk : g.nodes.get? k with
  | none => rfl
  | some n =>
    rw [Option.filter_some, Option.filter_some, isSourceNode_eq h (IdMap.mem_values_iff.2 ⟨k, hk⟩)]

/-- The empty gates that a pass looks for. -/
theorem emptyGates_eq : emptyGates g = letI := Unlimited.words; emptyGates g := by
  unfold emptyGates
  rw [List.filter_congr fun n hn => by rw [h.indegree_eq hn]]

end Questions

/-! ## Loops over edges -/

theorem costs_feedAll (v : Bool) (t : Tally) :
    Edit.Costs .roomy (feedAll v t) (letI _ := Unlimited.words; feedAll v t)
      (t.spread.length * 2) := by
  unfold feedAll
  exact Edit.Costs.forM_entries (fun e => (Edit.costs_addNode _ [] [e.1]).discard.repeated e.2) t

theorem costs_divertAll (c : Nat) (t : Tally) :
    Edit.Costs .roomy (divertAll c t) (letI _ := Unlimited.words; divertAll c t)
      (t.spread.length * 2) := by
  unfold divertAll
  refine Edit.Costs.forM_entries (fun e => ?_) t
  rw [← Nat.zero_add (e.2 * 2)]
  exact (Edit.Costs.free fun _ _ hg => Diagram.Roomy.sever hg _ _).bind fun _ =>
    (Edit.costs_addNode _ [e.1] []).discard.repeated e.2

theorem costs_negateAll (c : Nat) (t : Tally) :
    Edit.Costs .roomy (negateAll c t) (letI _ := Unlimited.words; negateAll c t)
      (t.spread.length * 3) := by
  unfold negateAll
  refine Edit.Costs.forM_entries (fun e => ?_) t
  rw [← Nat.zero_add (e.2 * 3)]
  exact (Edit.Costs.free fun _ _ hg => Diagram.Roomy.sever hg _ _).bind fun _ =>
    (Edit.costs_addNode _ [c] [e.1]).discard.repeated e.2

/-! ## Rules -/

section Rules

variable (h : g.Spacious)
include h

theorem foldCopy_eq (s : Nat) :
    (foldCopy s).runOn g = letI := Unlimited.words; (foldCopy s).runOn g := by
  unfold foldCopy
  rw [runOn_get_bind, runOn_get_bind, feedsKind?_eq h.degreesHold]
  split
  · rfl
  · rename_i v c _
    refine Edit.runOn_find_bind_congr fun copy hcopy => ?_
    have hmem := IdMap.mem_values_iff.2 ⟨c, hcopy⟩
    rw [h.degreesHold.indegree_eq hmem, h.degreesHold.outdegree_eq hmem]
    split
    · rfl
    · split
      · rfl
      · refine Edit.runOn_bind_congr rfl fun _ g' hrun => ?_
        obtain rfl : g.removeNodes [s, c] = g' := congrArg Prod.snd hrun
        refine ((costs_feedAll v _).bind fun _ => .pure true).runOn_eq
          (Diagram.Roomy.removeNodes ?_ _)
        exact Diagram.below_of_node? hcopy ▸ h.roomy_below c (Nat.le_succ 2)

theorem foldNot_eq (s : Nat) :
    (foldNot s).runOn g = letI := Unlimited.words; (foldNot s).runOn g := by
  unfold foldNot
  rw [runOn_get_bind, runOn_get_bind, feedsKind?_eq h.degreesHold]
  split
  · rfl
  · rename_i v c _
    refine Edit.runOn_find_bind_congr fun negation hc => ?_
    rw [h.degreesHold.indegree_eq (IdMap.mem_values_iff.2 ⟨c, hc⟩)]

theorem absorb_eq (c : Nat) (v : Bool) :
    (absorb c v).runOn g = letI := Unlimited.words; (absorb c v).runOn g := by
  unfold absorb
  refine Edit.runOn_find_bind_congr fun gate hgate => ?_
  have hroom := Diagram.above_of_node? hgate ▸ h.roomy_above c (Nat.le_succ 2)
  exact Edit.runOn_bind_congr ((costs_divertAll c _).runOn_eq hroom) fun _ _ _ => rfl

theorem foldAndOr_eq (s : Nat) :
    (foldAndOr s).runOn g = letI := Unlimited.words; (foldAndOr s).runOn g := by
  unfold foldAndOr
  rw [runOn_get_bind, runOn_get_bind, feedsKind?_eq h.degreesHold]
  split
  · rfl
  · rename_i v c _
    refine Edit.runOn_bind_congr rfl fun _ g' hrun => ?_
    obtain rfl : g.removeNode s = g' := congrArg Prod.snd hrun
    dsimp only
    split
    · exact Edit.runOn_bind_congr (absorb_eq (h.removeNode s) c v) fun _ _ _ => rfl
    · rfl

theorem negateResults_eq (c : Nat) :
    (negateResults c).runOn g = letI := Unlimited.words; (negateResults c).runOn g := by
  unfold negateResults
  refine Edit.runOn_find_bind_congr fun gate hgate => ?_
  exact (costs_negateAll c _).runOn_eq
    (Diagram.below_of_node? hgate ▸ h.roomy_below c (Nat.le_refl 3))

theorem foldXor_eq (s : Nat) :
    (foldXor s).runOn g = letI := Unlimited.words; (foldXor s).runOn g := by
  unfold foldXor
  rw [runOn_get_bind, runOn_get_bind, feedsKind?_eq h.degreesHold]
  split
  · rfl
  · rename_i v c _
    refine Edit.runOn_bind_congr rfl fun _ g' hrun => ?_
    obtain rfl : g.removeNode s = g' := congrArg Prod.snd hrun
    dsimp only
    split
    · exact Edit.runOn_bind_congr (negateResults_eq (h.removeNode s) c) fun _ _ _ => rfl
    · rfl

theorem settleNeutral_eq (k : Nat) :
    (settleNeutral k).runOn g = letI := Unlimited.words; (settleNeutral k).runOn g := by
  unfold settleNeutral
  rw [runOn_get_bind, runOn_get_bind, emptyValue?_eq h.degreesHold]

theorem splitFanOut_eq (s : Nat) :
    (splitFanOut s).runOn g = letI := Unlimited.words; (splitFanOut s).runOn g := by
  unfold splitFanOut
  rw [runOn_get_bind, runOn_get_bind, fanOut?_eq h.degreesHold]
  cases hfan : letI := Unlimited.words; fanOut? g s with
  | none => rfl
  | some e =>
    obtain ⟨v, children⟩ := e
    obtain ⟨n, hn, -, -, -, rfl⟩ := fanOut?_eq_some_iff.1 hfan
    refine Edit.runOn_bind_congr rfl fun _ g' hrun => ?_
    obtain rfl : g.removeNode s = g' := congrArg Prod.snd hrun
    refine Edit.runOn_bind_congr ((costs_feedAll v _).runOn_eq (Diagram.Roomy.removeNode ?_ s))
      fun _ _ _ => rfl
    exact Diagram.below_of_node? hn ▸ h.roomy_below s (Nat.le_succ 2)

theorem foldSource_eq (s : Nat) :
    (foldSource s).runOn g = letI := Unlimited.words; (foldSource s).runOn g := by
  unfold foldSource
  rw [runOn_get_bind, runOn_get_bind, isSource_eq h.degreesHold, fanOut?_eq h.degreesHold,
    feeds?_eq h.degreesHold]
  split
  · rfl
  · split
    · exact splitFanOut_eq h s
    · split
      · rfl
      · split
        · exact foldCopy_eq h s
        · exact foldNot_eq h s
        · exact foldAndOr_eq h s
        · exact foldAndOr_eq h s
        · exact foldXor_eq h s
        all_goals rfl

/-- **Rules within words.** -/
theorem fire_eq (rule : Rule) (k : Nat) :
    (rule.fire k).runOn g = letI := Unlimited.words; (rule.fire k).runOn g := by
  cases rule with
  | copy => exact foldCopy_eq h k
  | not => exact foldNot_eq h k
  | andOr => exact foldAndOr_eq h k
  | xor => exact foldXor_eq h k
  | neutral => exact settleNeutral_eq h k
  | fanOut => exact splitFanOut_eq h k
  | source => exact foldSource_eq h k

end Rules

end Circuit

end Wiring
