import Wiring.Diagram.Basic
import Wiring.IdMap.Lemmas

/-!
# Stripping parentless nodes

A diagram without directed cycles can be taken apart by removing parentless nodes until none is
left. What cannot be stripped shows that there is a cycle.

## Main definitions

- `Frontier` — the state of the process: nodes without edges in, and the counts of all others
- `Diagram.strip` — the order in which nodes are stripped, and the residue that is left
- `Diagram.isCyclic` — whether there is a residue
- `Diagram.topologicalOrder` — the order, if there is no residue
-/

namespace Wiring

/-- **The state of stripping**: nodes with no edge left into them, first come first served, and for
    every other node how many are left. -/
structure Frontier where
  /-- Nodes to strip next, in this order. -/
  ready : List Nat
  /-- How many edges are left into each node that is not ready. -/
  waiting : IdMap Nat

namespace Frontier

/-- Takes away `m` edges into `c`. A node that loses its last edge becomes ready. -/
def release (s : Frontier) (c m : Nat) : Frontier :=
  match s.waiting.get? c with
  | none => s
  | some d =>
    if d ≤ m then { ready := s.ready ++ [c], waiting := s.waiting.erase c }
    else { s with waiting := s.waiting.modify c (· - m) }

/-- Takes away all edges to the listed children. -/
def releaseAll (s : Frontier) (children : List (Nat × Nat)) : Frontier :=
  children.foldl (fun s e => s.release e.1 e.2) s

/-- The number of nodes not stripped yet. -/
def remaining (s : Frontier) : Nat := s.ready.length + s.waiting.size

@[simp]
theorem remaining_release (s : Frontier) (c m : Nat) :
    (s.release c m).remaining = s.remaining := by
  rw [release]
  split
  · rfl
  · rename_i d hd
    split
    · have := IdMap.size_erase_add_one hd
      simp only [remaining, List.length_append, List.length_singleton]
      omega
    · simp [remaining]

@[simp]
theorem remaining_releaseAll (s : Frontier) (children : List (Nat × Nat)) :
    (s.releaseAll children).remaining = s.remaining := by
  induction children generalizing s with
  | nil => rfl
  | cons e es ih =>
    rw [releaseAll, List.foldl_cons, ← releaseAll, ih, remaining_release]

end Frontier

namespace Diagram

variable {α : Type}

/-- The state before any node is stripped. Counts go by the ids of the nodes themselves. -/
def frontier [Words] (g : Diagram α) : Frontier :=
  let indegrees := IdMap.ofList (g.nodes.values.map fun n => (n.id, n.indegree))
  { ready := (indegrees.filter fun _ d => d == 0).keys
    waiting := indegrees.filter fun _ d => d != 0 }

/-- Strips nodes from a given state on: the order in which they go, and the residue of those that
    never get ready. -/
def stripFrom (g : Diagram α) : Frontier → Except Fault (List Nat × List Nat)
  | ⟨[], waiting⟩ => .ok ([], waiting.keys)
  | ⟨id :: ready, waiting⟩ =>
    match g.fetch id with
    | .error fault => .error fault
    | .ok n =>
      match g.stripFrom (Frontier.releaseAll ⟨ready, waiting⟩ n.children.entries) with
      | .error fault => .error fault
      | .ok (order, residue) => .ok (id :: order, residue)
termination_by s => s.remaining
decreasing_by
  rw [Frontier.remaining_releaseAll]
  simp only [Frontier.remaining, List.length_cons]
  omega

/-- **Strips parentless nodes** as long as there are any: the order in which they go, and the
    residue. -/
def strip [Words] (g : Diagram α) : Except Fault (List Nat × List Nat) := g.stripFrom g.frontier

/-- Whether stripping leaves a residue, that is, whether there is a directed cycle. -/
def isCyclic [Words] (g : Diagram α) : Except Fault Bool := do
  let (_, residue) ← g.strip
  .ok (!residue.isEmpty)

/-- Whether stripping leaves no residue. -/
def isAcyclic [Words] (g : Diagram α) : Except Fault Bool := do
  let (_, residue) ← g.strip
  .ok residue.isEmpty

/-- **The nodes in an order in which every edge goes forward**, unless there is a cycle. -/
def topologicalOrder [Words] (g : Diagram α) : Except Fault (List Nat) := do
  let (order, residue) ← g.strip
  if residue.isEmpty then .ok order else .error .cyclic

end Diagram

end Wiring
