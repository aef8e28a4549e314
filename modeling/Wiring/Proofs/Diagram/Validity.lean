import Wiring.Diagram.WellFormed
import Wiring.Proofs.Diagram.Neighbours

/-!
# What the check of a diagram says

A diagram read from outside may count an edge zero times, which the check does not mind. What it
says of such diagrams too is that they are sealed.

## Main definitions

- `Diagram.Sealed` — what the check asks of the nodes

## Main statements

- `Diagram.all_nodeOk_iff_sealed` — all nodes pass exactly in sealed diagrams
- `Diagram.all_nodeOk_iff` — without zeros, exactly in coherent ones
- `Diagram.isWellFormed_iff_sealed`, `Diagram.isWellFormed_iff` — the whole check
-/

namespace Wiring.Diagram

open scoped Unlimited

variable {α : Type} {g : Diagram α} {i k o : Nat}

theorem childAgrees_iff {id c m : Nat} : g.childAgrees id c m = true ↔
    g.contains c = true ∧ (g.above c).count id = m := by
  rw [childAgrees, contains_eq_isSome]
  cases hc : g.node? c with
  | none => simp
  | some child => simp [above_of_node? hc, Tally.count_spread]

theorem parentAgrees_iff {id p m : Nat} : g.parentAgrees id p m = true ↔
    g.contains p = true ∧ (g.below p).count id = m := by
  rw [parentAgrees, contains_eq_isSome]
  cases hp : g.node? p with
  | none => simp
  | some parent => simp [below_of_node? hp, Tally.count_spread]

theorem nodeOk_iff {id : Nat} {n : Node α} : g.nodeOk id n = true ↔
    n.id = id ∧
      (∀ c m, n.children.get? c = some m → g.contains c = true ∧ (g.above c).count id = m) ∧
      ∀ p m, n.parents.get? p = some m → g.contains p = true ∧ (g.below p).count id = m := by
  simp only [nodeOk, Bool.and_eq_true, beq_iff_eq, List.all_eq_true, and_assoc, Prod.forall,
    IdMap.mem_entries_iff, childAgrees_iff, parentAgrees_iff]

/-- **A sealed diagram**: nodes are stored under the ids they go by, all neighbours that they list
    are nodes, even those counted zero times, and the two ends of every edge count it alike. -/
structure Sealed (g : Diagram α) : Prop where
  stored : g.Stored
  child : ∀ k n c, g.node? k = some n → c ∈ n.children.keys → g.contains c = true
  parent : ∀ k n p, g.node? k = some n → p ∈ n.parents.keys → g.contains p = true
  agree : ∀ u v, (g.above v).count u = (g.below u).count v

/-- **All nodes pass the check** exactly in sealed diagrams. -/
theorem all_nodeOk_iff_sealed :
    (g.nodes.entries.all fun e => g.nodeOk e.1 e.2) = true ↔ g.Sealed := by
  simp only [List.all_eq_true, Prod.forall, IdMap.mem_entries_iff]
  constructor
  · intro h
    refine ⟨fun k n hn => (nodeOk_iff.1 (h k n hn)).1, fun k n c hn hc => ?_,
      fun k n p hn hp => ?_, fun u v => ?_⟩
    · rw [IdMap.mem_keys_iff, IdMap.contains_iff] at hc
      obtain ⟨m, hm⟩ := hc
      exact ((nodeOk_iff.1 (h k n hn)).2.1 c m hm).1
    · rw [IdMap.mem_keys_iff, IdMap.contains_iff] at hp
      obtain ⟨m, hm⟩ := hp
      exact ((nodeOk_iff.1 (h k n hn)).2.2 p m hm).1
    -- a count that is not zero is stored where the check compares it with the other end
    · by_cases hu : v ∈ g.below u
      · obtain ⟨n, hn⟩ := contains_iff.1 (contains_of_mem_below hu)
        rw [below_of_node? hn, Tally.mem_spread] at hu
        obtain ⟨m, hm, hcount⟩ := Tally.get?_of_count_pos hu
        rw [((nodeOk_iff.1 (h u n hn)).2.1 v m hm).2, below_of_node? hn, Tally.count_spread,
          hcount]
      · rw [List.count_eq_zero.2 hu, List.count_eq_zero]
        intro hv
        obtain ⟨n, hn⟩ := contains_iff.1 (contains_of_mem_above hv)
        rw [above_of_node? hn, Tally.mem_spread] at hv
        obtain ⟨m, hm, hcount⟩ := Tally.get?_of_count_pos hv
        have := ((nodeOk_iff.1 (h v n hn)).2.2 u m hm).2
        rw [List.count_eq_zero.2 hu] at this
        omega
  · intro hg k n hn
    refine nodeOk_iff.2 ⟨hg.stored k n hn, fun c m hc => ⟨?_, ?_⟩, fun p m hp => ⟨?_, ?_⟩⟩
    · exact hg.child k n c hn (IdMap.mem_keys_iff.2 (IdMap.contains_iff.2 ⟨m, hc⟩))
    · rw [hg.agree, below_of_node? hn, Tally.count_spread, Tally.count, hc, Option.getD_some]
    · exact hg.parent k n p hn (IdMap.mem_keys_iff.2 (IdMap.contains_iff.2 ⟨m, hp⟩))
    · rw [← hg.agree, above_of_node? hn, Tally.count_spread, Tally.count, hp, Option.getD_some]

/-- Without zeros, only neighbours that are nodes can be listed. -/
theorem Coherent.sealed (hg : g.Coherent) : g.Sealed where
  stored := hg.id_eq
  child k n c hn hc := by
    rw [(hg.positive k n hn).2.mem_keys, ← below_of_node? hn] at hc
    exact hg.contains_of_mem_below hc
  parent k n p hn hp := by
    rw [(hg.positive k n hn).1.mem_keys, ← above_of_node? hn] at hp
    exact hg.contains_of_mem_above hp
  agree := hg.agree

/-- All nodes pass the check exactly if stored ids and the ends of edges agree. -/
theorem all_nodeOk_iff (hpos : g.Positive) :
    (g.nodes.entries.all fun e => g.nodeOk e.1 e.2) = true ↔ g.Coherent :=
  all_nodeOk_iff_sealed.trans
    ⟨fun hg => ⟨hg.stored, hpos, hg.agree⟩, Coherent.sealed⟩

instance (t : Tally) : Decidable t.Positive :=
  decidable_of_iff (∀ e ∈ t.entries, 0 < e.2) <| by
    simp only [Tally.Positive, Prod.forall, IdMap.mem_entries_iff]

instance (g : Diagram α) : Decidable g.Positive :=
  decidable_of_iff (∀ e ∈ g.nodes.entries, e.2.parents.Positive ∧ e.2.children.Positive) <| by
    simp only [Positive, Prod.forall, IdMap.mem_entries_iff]
    rfl

instance (g : Diagram α) : Decidable g.Coherent :=
  decidable_of_iff (g.Positive ∧ (g.nodes.entries.all fun e => g.nodeOk e.1 e.2) = true)
    ⟨fun ⟨hpos, hall⟩ => (all_nodeOk_iff hpos).1 hall,
      fun h => ⟨h.positive, (all_nodeOk_iff h.positive).2 h⟩⟩

/-- The check asks the terminals one by one, and all nodes to be sealed. -/
theorem isWellFormed_iff_sealed [Words] : g.isWellFormed = true ↔
    (∀ i ∈ g.inputs, g.inputOk i = true) ∧ (∀ o ∈ g.outputs, g.outputOk .strict o = true) ∧
      g.Sealed := by
  rw [isWellFormed, isWellFormedWith, Bool.and_eq_true, Bool.and_eq_true, all_nodeOk_iff_sealed,
    List.all_eq_true, List.all_eq_true, and_assoc]

theorem contains_of_inputOk [Words] (hi : g.inputOk i = true) : g.contains i = true := by
  rw [inputOk] at hi
  rw [contains_eq_isSome]
  cases hn : g.node? i with
  | none => simp [hn] at hi
  | some n => rfl

theorem contains_of_outputOk [Words] {rule : OutputRule} (ho : g.outputOk rule o = true) :
    g.contains o = true := by
  rw [outputOk] at ho
  rw [contains_eq_isSome]
  cases hn : g.node? o with
  | none => simp [hn] at ho
  | some n => rfl

theorem inputOk_iff (hpos : g.Positive) : g.inputOk i = true ↔
    g.contains i = true ∧ g.above i = [] ∧ (g.below i).length = 1 := by
  rw [inputOk, contains_eq_isSome]
  cases hi : g.node? i with
  | none => simp
  | some n =>
    simp only [Bool.and_eq_true, beq_iff_eq, (hpos i n hi).2.single?_isSome, Node.indegree,
      ← Tally.length_spread, above_of_node? hi, below_of_node? hi, List.length_eq_zero_iff,
      Option.isSome_some, true_and]

theorem outputOk_strict_iff (hpos : g.Positive) : g.outputOk .strict o = true ↔
    g.contains o = true ∧ g.below o = [] ∧ (g.above o).length = 1 := by
  rw [outputOk, contains_eq_isSome]
  cases ho : g.node? o with
  | none => simp
  | some n =>
    have hrule : (OutputRule.strict == OutputRule.relaxed) = false := by decide
    simp only [Bool.and_eq_true, beq_iff_eq, Bool.or_eq_true, hrule, Bool.false_and,
      Bool.false_eq_true, or_false, (hpos o n ho).1.single?_isSome, Node.outdegree,
      ← Tally.length_spread, above_of_node? ho, below_of_node? ho, List.length_eq_zero_iff,
      Option.isSome_some, true_and]

/-- **A diagram without zeros passes the check** exactly if it is coherent, every input is a node
    with a single edge out and none in, and every output one with a single edge in and none out. -/
theorem isWellFormed_iff (hpos : g.Positive) : g.isWellFormed = true ↔
    (∀ i ∈ g.inputs, g.contains i = true ∧ g.above i = [] ∧ (g.below i).length = 1) ∧
      (∀ o ∈ g.outputs, g.contains o = true ∧ g.below o = [] ∧ (g.above o).length = 1) ∧
      g.Coherent := by
  rw [isWellFormed_iff_sealed, ← all_nodeOk_iff_sealed, all_nodeOk_iff hpos]
  refine and_congr (forall₂_congr fun i _ => inputOk_iff hpos) (and_congr ?_ Iff.rfl)
  exact forall₂_congr fun o _ => outputOk_strict_iff hpos

end Wiring.Diagram
