import Wiring.Circuit.Basic
import Wiring.Diagram.DeadEnds
import Wiring.Diagram.Levels
import Wiring.Diagram.LongestPath
import Wiring.Proofs.Diagram.Uniting

/-!
# Degrees that words hold

The degree of a node is added up in a word. As long as the word holds the number of edges, which is
the length of a list of neighbours, nothing that is asked of degrees depends on how large words are:
neither the checks of well-formedness, nor stripping and what is built on it, nor pruning.

## Main definitions

- `Diagram.DegreesHold` — words hold the numbers of edges into and out of every node

## Main statements

- `Diagram.DegreesHold.indegree_eq`, `Diagram.DegreesHold.outdegree_eq` — degrees are lengths
- `Diagram.DegreesHold.strip_eq`, `Diagram.DegreesHold.levels_eq`,
  `Diagram.DegreesHold.longestPath_eq` — stripping, levels and longest paths
- `Diagram.DegreesHold.isWellFormed_eq`, `Circuit.isWellFormed_eq` — the checks
- `Diagram.DegreesHold.prune_eq` — pruning
-/

namespace Wiring

/-- A total is the number of neighbours that are counted, if a word holds that. -/
theorem Tally.total_of_holds [Words] {t : Tally} (h : Words.Holds t.spread.length) :
    t.total = t.spread.length := by
  rw [length_spread] at h ⊢
  unfold total at h ⊢
  generalize t.values = l at h ⊢
  induction l with
  | nil => rfl
  | cons m l ih =>
    rw [List.foldr_cons, Words.wrap_unlimited] at h
    rw [List.foldr_cons, List.foldr_cons, ih (h.mono (Nat.le_add_left _ _)), Words.wrap_of_holds h,
      Words.wrap_unlimited]

namespace Diagram

variable [Words] {α : Type} {g : Diagram α} {k : Nat} {n : Node α}

/-- **Words hold the degrees**: the number of edges into every node, and that of edges out of it. -/
def DegreesHold (g : Diagram α) : Prop :=
  ∀ k ∈ g.ids, Words.Holds (g.above k).length ∧ Words.Holds (g.below k).length

instance (g : Diagram α) : Decidable g.DegreesHold :=
  inferInstanceAs (Decidable (∀ k ∈ g.ids, _))

namespace DegreesHold

variable (h : g.DegreesHold)
include h

theorem holds (k : Nat) : Words.Holds (g.above k).length ∧ Words.Holds (g.below k).length := by
  by_cases hk : g.contains k = true
  · exact h k (mem_ids.2 hk)
  · rw [Bool.not_eq_true] at hk
    rw [above_eq_nil hk, below_eq_nil hk]
    exact ⟨.zero, .zero⟩

theorem indegree_eq (hn : n ∈ g.nodes.values) :
    n.indegree = letI := Unlimited.words; n.indegree := by
  obtain ⟨k, hk⟩ := IdMap.mem_values_iff.1 hn
  have hheld := (h.holds k).1
  rw [above_of_node? hk] at hheld
  exact (Tally.total_of_holds hheld).trans (Tally.length_spread _)

theorem outdegree_eq (hn : n ∈ g.nodes.values) :
    n.outdegree = letI := Unlimited.words; n.outdegree := by
  obtain ⟨k, hk⟩ := IdMap.mem_values_iff.1 hn
  have hheld := (h.holds k).2
  rw [below_of_node? hk] at hheld
  exact (Tally.total_of_holds hheld).trans (Tally.length_spread _)

/-! ## Stripping -/

theorem strip_eq : g.strip = letI := Unlimited.words; g.strip := by
  have hdegrees : (g.nodes.values.map fun n => (n.id, n.indegree)) =
      g.nodes.values.map fun n => (n.id, letI := Unlimited.words; n.indegree) :=
    List.map_congr_left fun n hn => by rw [h.indegree_eq hn]
  unfold strip frontier
  rw [hdegrees]

theorem isCyclic_eq : g.isCyclic = letI := Unlimited.words; g.isCyclic := by
  unfold isCyclic
  rw [h.strip_eq]

theorem isAcyclic_eq : g.isAcyclic = letI := Unlimited.words; g.isAcyclic := by
  unfold isAcyclic
  rw [h.strip_eq]

theorem topologicalOrder_eq :
    g.topologicalOrder = letI := Unlimited.words; g.topologicalOrder := by
  unfold topologicalOrder
  rw [h.strip_eq]

theorem levels_eq : g.levels = letI := Unlimited.words; g.levels := by
  have hroots : (g.nodes.values.filter fun n => n.indegree == 0) =
      g.nodes.values.filter fun n => (letI _ := Unlimited.words; n.indegree) == 0 :=
    List.filter_congr fun n hn => by rw [h.indegree_eq hn]
  unfold levels seeds
  rw [h.isCyclic_eq, hroots]

theorem longestPath_eq (source target : Nat) :
    g.longestPath source target = letI := Unlimited.words; g.longestPath source target := by
  unfold longestPath
  rw [h.topologicalOrder_eq]

/-! ## Well-formedness -/

theorem inputOk_eq (i : Nat) : g.inputOk i = letI := Unlimited.words; g.inputOk i := by
  unfold inputOk
  cases hi : g.node? i with
  | none => rfl
  | some n =>
    dsimp only
    rw [h.indegree_eq (IdMap.mem_values_iff.2 ⟨i, hi⟩)]

theorem outputOk_eq (rule : OutputRule) (o : Nat) :
    g.outputOk rule o = letI := Unlimited.words; g.outputOk rule o := by
  unfold outputOk
  cases ho : g.node? o with
  | none => rfl
  | some n =>
    have hn := IdMap.mem_values_iff.2 ⟨o, ho⟩
    dsimp only
    rw [h.indegree_eq hn, h.outdegree_eq hn]

theorem isWellFormed_eq : g.isWellFormed = letI := Unlimited.words; g.isWellFormed := by
  unfold isWellFormed isWellFormedWith
  rw [funext h.inputOk_eq, funext (h.outputOk_eq .strict)]

/-! ## Pruning -/

theorem deadEnds_eq : g.deadEnds = letI := Unlimited.words; g.deadEnds := by
  unfold deadEnds
  rw [List.filter_congr fun n hn => by rw [h.outdegree_eq hn]]

theorem relabel (k : Nat) (label : α) : (g.relabel k label).DegreesHold := fun i _ => by
  rw [above_relabel, below_relabel]
  exact h.holds i

theorem removeNodes (hg : g.Coherent) (ids : List Nat) : (g.removeNodes ids).DegreesHold := by
  intro k _
  rw [hg.above_removeNodes, hg.below_removeNodes]
  split
  · exact ⟨.zero, .zero⟩
  · obtain ⟨hin, hout⟩ := h.holds k
    exact ⟨hin.mono (List.length_filter_le _ _), hout.mono (List.length_filter_le _ _)⟩

theorem prune_eq (hg : g.Coherent) : g.prune = letI := Unlimited.words; g.prune := by
  induction hsize : g.size using Nat.strongRecOn generalizing g with
  | ind size ih =>
    rw [Diagram.prune_eq, @Diagram.prune_eq _ Unlimited.words, h.deadEnds_eq]
    set ids := letI := Unlimited.words; g.deadEnds
    split
    · rfl
    · split
      · rename_i hsmaller
        rw [ih _ (hsize ▸ hsmaller) (h.removeNodes hg ids) (hg.removeNodes ids) rfl]
      · rfl

end DegreesHold

end Diagram

namespace Circuit

variable [Words] {g : Circuit}

theorem gateOk_eq (h : g.DegreesHold) {n : Node Gate} (hn : n ∈ g.nodes.values) :
    gateOk n = letI := Unlimited.words; gateOk n := by
  unfold gateOk
  rw [h.indegree_eq hn, h.outdegree_eq hn]

/-- **The check of circuits** asks for degrees and for cycles. -/
theorem isWellFormed_eq (h : g.DegreesHold) :
    isWellFormed g = letI := Unlimited.words; isWellFormed g := by
  unfold isWellFormed
  rw [h.isWellFormed_eq, h.isAcyclic_eq, Bool.eq_iff_iff]
  simp only [Bool.and_eq_true, List.all_eq_true]
  refine and_congr_right fun _ => forall₂_congr fun n hn => ?_
  rw [gateOk_eq h hn]

end Circuit

end Wiring
