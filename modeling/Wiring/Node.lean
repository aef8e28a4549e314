import Wiring.Tally.Basic

/-!
# Nodes

A node knows its own id, its label and how many edges join it to each parent and each child. That
the neighbours agree with its counts is the concern of the diagram that holds them. Degrees and ids
are kept in words like the counts.

## Main definitions

- `Node` — a labelled node with its tallies of parents and children
- `Node.ofEdges` — the node with listed neighbours
- `Node.indegree`, `Node.outdegree` — edges in and out, counted with multiplicity
- `Node.shift` — the node with every id raised
-/

namespace Wiring

/-- **A node of a diagram**: its id, its label and the edges recorded at it. -/
structure Node (α : Type) where
  /-- The id that the node goes by. -/
  id : Nat
  /-- What the node stands for. -/
  label : α
  /-- The number of edges from each parent. -/
  parents : Tally
  /-- The number of edges to each child. -/
  children : Tally
deriving DecidableEq

namespace Node

variable {α : Type}

/-- The node without edges. -/
def isolated (id : Nat) (label : α) : Node α := ⟨id, label, IdMap.empty, IdMap.empty⟩

/-- The node with the listed neighbours, whose repeats add up. -/
def ofEdges [Words] (id : Nat) (label : α) (parents children : List (Nat × Nat)) : Node α :=
  ⟨id, label, Tally.ofList parents, Tally.ofList children⟩

/-- The number of edges into the node. -/
def indegree [Words] (n : Node α) : Nat := n.parents.total

/-- The number of edges out of the node. -/
def outdegree [Words] (n : Node α) : Nat := n.children.total

/-- The number of edge ends at the node. -/
def degree [Words] (n : Node α) : Nat := Words.wrap (n.indegree + n.outdegree)

/-- The node with another label. -/
def relabel (n : Node α) (label : α) : Node α := { n with label }

/-- Records `m` more edges from the parent `p`. -/
def addParent [Words] (n : Node α) (p m : Nat) : Node α :=
  { n with parents := n.parents.add p m }

/-- Records `m` more edges to the child `c`. -/
def addChild [Words] (n : Node α) (c m : Nat) : Node α :=
  { n with children := n.children.add c m }

/-- Forgets one edge from the parent `p`, if there is one. -/
def dropParentEdge (n : Node α) (p : Nat) : Node α :=
  { n with parents := n.parents.decrement p }

/-- Forgets one edge to the child `c`, if there is one. -/
def dropChildEdge (n : Node α) (c : Nat) : Node α :=
  { n with children := n.children.decrement c }

/-- Forgets the parent `p` with all edges from it. -/
def eraseParent (n : Node α) (p : Nat) : Node α := { n with parents := n.parents.erase p }

/-- Forgets the child `c` with all edges to it. -/
def eraseChild (n : Node α) (c : Nat) : Node α := { n with children := n.children.erase c }

/-- The node with its own id and those of its neighbours raised by `d`. -/
def shift [Words] (n : Node α) (d : Nat) : Node α :=
  { n with
    id := Words.wrap (n.id + d)
    parents := n.parents.renumber d
    children := n.children.renumber d }

end Node

end Wiring
