import Wiring.Diagram.Edges

/-!
# Adjacency matrices

The edges of a diagram as a square matrix of multiplicities, and the diagram of such a matrix.

## Main definitions

- `Diagram.adjacency` — the matrix of a diagram, rows and columns in ascending id order
- `Diagram.ofAdjacency` — the diagram without terminals that a matrix describes
-/

namespace Wiring

namespace Diagram

variable {α : Type}

/-- **The adjacency matrix**: the row of a node counts its edges to every node. -/
def adjacency (g : Diagram α) : List (List Nat) :=
  g.nodes.values.map fun n => g.ids.map n.children.count

/-- The `n` isolated nodes with ids below `n`. -/
def discrete [Inhabited α] (n : Nat) : Diagram α :=
  { nodes := IdMap.ofList ((List.range n).map fun i => (i, .isolated i default))
    inputs := []
    outputs := []
    nextId := n }

/-- Adds the edges that leave the node `i`, given as their numbers to each of the nodes from `j`
    on. -/
def joinRow [Words] (g : Diagram α) (i j : Nat) : List Nat → Diagram α
  | [] => g
  | m :: row => (g.join i j m).joinRow i (j + 1) row

/-- Adds the edges of the listed rows, which belong to the nodes from `i` on. -/
def joinRows [Words] (g : Diagram α) (i : Nat) : List (List Nat) → Diagram α
  | [] => g
  | row :: rows => (g.joinRow i 0 row).joinRows (i + 1) rows

/-- **The diagram of a square matrix**: a node for each row, and as many edges from the `i`th node
    to the `j`th as the entry says. The first row of another length is reported. -/
def ofAdjacency [Words] [Inhabited α] (rows : List (List Nat)) : Except Fault (Diagram α) :=
  match rows.find? (·.length != rows.length) with
  | some row => .error (.arity rows.length row.length)
  | none => .ok ((discrete rows.length).joinRows 0 rows)

end Diagram

end Wiring
