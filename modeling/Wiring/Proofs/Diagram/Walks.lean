import Wiring.Diagram.Distance
import Wiring.Proofs.Diagram.Cycles

/-!
# Walks

A walk goes from neighbour to neighbour, along the edges, against them or both ways. Its length is
the number of its steps, and the distance of a node is the least length of a walk to it. A route is
a walk written down as the list of the nodes that it visits.

## Main definitions

- `Diagram.Step` — from a node to a neighbour
- `Diagram.Walk` — so many steps from one node to another
- `Diagram.IsDistance` — the least number of steps
- `Diagram.Route`, `Diagram.ShortestRoute` — the nodes on the way

## Main statements

- `Diagram.exists_route_iff` — walks can be written down, and lists of steps are walks
- `Diagram.Coherent.step_children_iff`, `Diagram.Coherent.step_parents_iff` — steps and edges
- `Diagram.Coherent.exists_walk_iff` — walks lead where edges lead
- `Diagram.Coherent.isDistance_parents_iff` — distances against the edges
-/

namespace Wiring.Diagram

open scoped Unlimited

variable {α : Type} {g : Diagram α} {d : Direction} {j k u v w : Nat} {path : List Nat}

/-! ## Steps -/

/-- **A step** from a node to one of the neighbours that it has recorded. -/
def Step (g : Diagram α) (d : Direction) (u v : Nat) : Prop :=
  ∃ n, g.node? u = some n ∧ v ∈ n.neighbours d

theorem Step.contains (h : g.Step d u v) : g.contains u = true := by
  obtain ⟨n, hn, -⟩ := h
  exact contains_iff.2 ⟨n, hn⟩

theorem step_iff {n : Node α} (hn : g.node? u = some n) : g.Step d u v ↔ v ∈ n.neighbours d := by
  constructor
  · rintro ⟨n', hn', h⟩
    obtain rfl : n = n' := Option.some.inj (hn.symm.trans hn')
    exact h
  · exact fun h => ⟨n, hn, h⟩

/-- Every step is also one of a search that goes both ways. -/
theorem Step.both (h : g.Step d u v) : g.Step .both u v := by
  obtain ⟨n, hn, h⟩ := h
  refine ⟨n, hn, ?_⟩
  cases d with
  | children => exact List.mem_append_left _ h
  | parents => exact List.mem_append_right _ h
  | both => exact h

theorem Coherent.step_children_iff (hg : g.Coherent) : g.Step .children u v ↔ g.Edge u v := by
  rw [Edge]
  cases hu : g.node? u with
  | none => simp [Step, hu, below]
  | some n =>
    rw [step_iff hu, below_of_node? hu]
    exact (hg.positive u n hu).2.mem_keys

theorem Coherent.step_parents_iff (hg : g.Coherent) : g.Step .parents u v ↔ g.Edge v u := by
  rw [Edge, ← hg.mem_above_iff]
  cases hu : g.node? u with
  | none => simp [Step, hu, above]
  | some n =>
    rw [step_iff hu, above_of_node? hu]
    exact (hg.positive u n hu).1.mem_keys

theorem step_both_iff : g.Step .both u v ↔ g.Step .children u v ∨ g.Step .parents u v := by
  constructor
  · rintro ⟨n, hn, h⟩
    exact (List.mem_append.1 h).imp (⟨n, hn, ·⟩) (⟨n, hn, ·⟩)
  · rintro (h | h)
    · exact h.both
    · exact h.both

/-- All neighbours exist where the two ends of an edge agree on it. -/
theorem Coherent.contains_of_step (hg : g.Coherent) (h : g.Step d u v) : g.contains v = true := by
  rcases step_both_iff.1 h.both with h | h
  · exact hg.contains_of_mem_below (hg.step_children_iff.1 h)
  · exact Diagram.contains_of_mem_below (hg.step_parents_iff.1 h)

/-! ## Walks -/

/-- **A walk of `k` steps** from `u` to `v`. -/
inductive Walk (g : Diagram α) (d : Direction) (u : Nat) : Nat → Nat → Prop where
  | nil : Walk g d u 0 u
  | snoc {k v w : Nat} (h : Walk g d u k v) (hstep : g.Step d v w) : Walk g d u (k + 1) w

/-- **The distance** of `v` from `u`: there is a walk of so many steps, and none of fewer. -/
structure IsDistance (g : Diagram α) (d : Direction) (u v k : Nat) : Prop where
  walk : g.Walk d u k v
  least : ∀ j, g.Walk d u j v → k ≤ j

theorem walk_zero_iff : g.Walk d u 0 v ↔ v = u := by
  constructor
  · rintro ⟨⟩
    rfl
  · rintro rfl
    exact .nil

theorem IsDistance.unique (h : g.IsDistance d u v k) (h' : g.IsDistance d u v j) : k = j :=
  Nat.le_antisymm (h.least j h'.walk) (h'.least k h.walk)

/-- Among the walks between two nodes there is a shortest one. -/
theorem Walk.exists_isDistance (h : g.Walk d u k v) : ∃ j, g.IsDistance d u v j := by
  classical
  have hex : ∃ j, g.Walk d u j v := ⟨k, h⟩
  exact ⟨Nat.find hex, Nat.find_spec hex, fun j hj => Nat.find_le hj⟩

theorem Walk.cons (hstep : g.Step d u v) (h : g.Walk d v k w) : g.Walk d u (k + 1) w := by
  induction h with
  | nil => exact .snoc .nil hstep
  | snoc _ hstep' ih => exact ih.snoc hstep'

/-- A walk can be gone backwards, in a direction that takes steps back. -/
theorem Walk.reverse {d' : Direction} (hback : ∀ u v, g.Step d u v → g.Step d' v u)
    (h : g.Walk d u k v) : g.Walk d' v k u := by
  induction h with
  | nil => exact .nil
  | snoc _ hstep ih => exact .cons (hback _ _ hstep) ih

/-- There is a walk along edges wherever edges lead. -/
theorem Coherent.exists_walk_iff (hg : g.Coherent) :
    (∃ k, g.Walk .children u k v) ↔ Relation.ReflTransGen g.Edge u v := by
  constructor
  · rintro ⟨k, h⟩
    induction h with
    | nil => exact .refl
    | snoc _ hstep ih => exact ih.tail (hg.step_children_iff.1 hstep)
  · intro h
    induction h with
    | refl => exact ⟨0, .nil⟩
    | tail _ he ih =>
      obtain ⟨k, hwalk⟩ := ih
      exact ⟨k + 1, hwalk.snoc (hg.step_children_iff.2 he)⟩

/-- A search that goes against the edges finds the distances that nodes have along them. -/
theorem Coherent.isDistance_parents_iff (hg : g.Coherent) :
    g.IsDistance .parents u v k ↔ g.IsDistance .children v u k := by
  have hdown : ∀ u v, g.Step .parents u v → g.Step .children v u := fun _ _ h =>
    hg.step_children_iff.2 (hg.step_parents_iff.1 h)
  have hup : ∀ u v, g.Step .children u v → g.Step .parents v u := fun _ _ h =>
    hg.step_parents_iff.2 (hg.step_children_iff.1 h)
  exact ⟨fun h => ⟨h.walk.reverse hdown, fun j hj => h.least j (hj.reverse hup)⟩,
    fun h => ⟨h.walk.reverse hup, fun j hj => h.least j (hj.reverse hdown)⟩⟩

/-- Walks stay among the nodes if steps do. -/
theorem Walk.contains (hstay : ∀ u v, g.Step d u v → g.contains v = true)
    (hu : g.contains u = true) (h : g.Walk d u k v) : g.contains v = true := by
  cases h with
  | nil => exact hu
  | snoc _ hstep => exact hstay _ _ hstep

/-! ## Routes -/

/-- **A route** from `u` to `v`: the list of the nodes on the way, with a step from each to the
    next. -/
structure Route (g : Diagram α) (d : Direction) (u v : Nat) (path : List Nat) : Prop where
  head : path.head? = some u
  last : path.getLast? = some v
  chain : path.IsChain (g.Step d)

theorem Route.singleton (g : Diagram α) (d : Direction) (u : Nat) : g.Route d u u [u] :=
  ⟨rfl, rfl, .singleton u⟩

theorem Route.snoc (h : g.Route d u v path) (hstep : g.Step d v w) :
    g.Route d u w (path ++ [w]) where
  head := by rw [List.head?_append, h.head]; rfl
  last := List.getLast?_concat
  chain := by
    refine h.chain.append (.singleton w) fun x hx y hy => ?_
    rw [h.last] at hx
    cases hx
    cases hy
    exact hstep

theorem Route.length_pos (h : g.Route d u v path) : 0 < path.length := by
  cases path with
  | nil => cases h.head
  | cons => exact Nat.succ_pos _

/-- A route that is longer than one node ends with a step. -/
theorem Route.of_snoc (h : g.Route d u w (path ++ [w])) (hlast : path.getLast? = some v) :
    g.Route d u v path ∧ g.Step d v w := by
  obtain ⟨hchain, -, hstep⟩ := List.isChain_append.1 h.chain
  refine ⟨⟨?_, hlast, hchain⟩, hstep v hlast w rfl⟩
  cases path with
  | nil => cases hlast
  | cons => exact h.head

theorem Route.walk (h : g.Route d u v path) : g.Walk d u (path.length - 1) v := by
  induction path using List.reverseRecOn generalizing v with
  | nil => cases h.head
  | append_singleton path w ih =>
    obtain rfl : w = v := Option.some.inj (List.getLast?_concat.symm.trans h.last)
    rw [List.length_append, List.length_singleton, Nat.add_sub_cancel]
    cases hlast : path.getLast? with
    | none =>
      obtain rfl := List.getLast?_eq_none_iff.1 hlast
      obtain rfl : w = u := Option.some.inj h.head
      exact .nil
    | some v =>
      obtain ⟨hroute, hstep⟩ := h.of_snoc hlast
      have hwalk := (ih hroute).snoc hstep
      rwa [Nat.sub_add_cancel hroute.length_pos] at hwalk

/-- **A shortest route**: no other one visits fewer nodes. -/
structure ShortestRoute (g : Diagram α) (d : Direction) (u v : Nat) (path : List Nat) : Prop where
  route : g.Route d u v path
  least : ∀ other, g.Route d u v other → path.length ≤ other.length

/-- A route that makes as many steps as the distance says is a shortest one. -/
theorem IsDistance.shortestRoute (h : g.IsDistance d u v k) (hroute : g.Route d u v path)
    (hlength : path.length = k + 1) : g.ShortestRoute d u v path := by
  refine ⟨hroute, fun other hother => ?_⟩
  have hle := h.least _ hother.walk
  have hpos := hother.length_pos
  omega

/-- Walks are what routes write down. -/
theorem exists_route_iff : (∃ path, g.Route d u v path ∧ path.length = k + 1) ↔ g.Walk d u k v := by
  constructor
  · rintro ⟨path, h, hlength⟩
    have hwalk := h.walk
    rwa [hlength] at hwalk
  · intro h
    induction h with
    | nil => exact ⟨[u], .singleton g d u, rfl⟩
    | snoc _ hstep ih =>
      obtain ⟨path, hpath, hlength⟩ := ih
      exact ⟨_, hpath.snoc hstep, by rw [List.length_append, hlength]; rfl⟩

end Wiring.Diagram
