import Wiring.Fault
import Wiring.Node

/-!
# Wiring diagrams

A wiring diagram is a directed multigraph with labelled nodes that is open at both ends: it lists
some of its nodes, in order, as inputs and some as outputs. These are its terminals. Nodes are
stored under ids, and the diagram remembers which id it gives out next.

Nothing is assumed of a diagram beyond its shape. References may dangle and the two ends of an edge
may disagree; `Wiring.Diagram.WellFormed` says when all is in order. The next id is kept in a word
too: after the largest one comes 0.

## Main definitions

- `Diagram` — a diagram, and `Diagram.ofNodes` to put one together
- `Diagram.node?`, `Diagram.find`, `Diagram.fetch` — lookups that answer nothing, refuse, or report
  a dangling reference
- `Diagram.isInput`, `Diagram.isOutput` — the terminals
- `Diagram.updateNode`, `Diagram.setInputs`, `Diagram.setOutputs` — changes that cannot fail
-/

namespace Wiring

/-- **A wiring diagram**: an open directed multigraph with labels from `α`. -/
structure Diagram (α : Type) where
  /-- The nodes under their ids. -/
  nodes : IdMap (Node α)
  /-- The input terminals in order. -/
  inputs : List Nat
  /-- The output terminals in order. -/
  outputs : List Nat
  /-- The id of the next new node. -/
  nextId : Nat
deriving DecidableEq

namespace Diagram

variable {α : Type}

/-- The diagram without nodes and terminals. -/
def empty : Diagram α := ⟨IdMap.empty, [], [], 0⟩

instance : EmptyCollection (Diagram α) := ⟨empty⟩

instance : Inhabited (Diagram α) := ⟨empty⟩

/-- The diagram of the listed nodes, stored under their own ids, and terminals. Nothing is checked:
    of two nodes with one id the later is kept, and a repeated terminal counts once. -/
def ofNodes [Words] (inputs outputs : List Nat) (nodes : List (Node α)) : Diagram α :=
  let nodes := IdMap.ofList (nodes.map fun n => (n.id, n))
  { nodes
    inputs := inputs.eraseDups
    outputs := outputs.eraseDups
    nextId := (nodes.maxKey?.map fun id => Words.wrap (id + 1)).getD 0 }

/-! ## Lookups -/

/-- The node stored under `id`. -/
def node? (g : Diagram α) (id : Nat) : Option (Node α) := g.nodes.get? id

/-- The node stored under an id that a caller has given. -/
def find (g : Diagram α) (id : Nat) : Except Fault (Node α) :=
  match g.node? id with
  | some n => .ok n
  | none => .error (.unknownNode id)

/-- The node stored under an id that the diagram itself refers to. -/
def fetch (g : Diagram α) (id : Nat) : Except Fault (Node α) :=
  match g.node? id with
  | some n => .ok n
  | none => .error (.dangling id)

/-- The label of the node stored under `id`. -/
def label? (g : Diagram α) (id : Nat) : Option α := (g.node? id).map (·.label)

/-- Whether a node is stored under `id`. -/
def contains (g : Diagram α) (id : Nat) : Bool := g.nodes.contains id

/-- The ids under which nodes are stored, ascending. -/
def ids (g : Diagram α) : List Nat := g.nodes.keys

/-- The number of nodes. -/
def size (g : Diagram α) : Nat := g.nodes.size

/-- The sum of a quantity over all nodes, however large it gets. -/
def sumOf (g : Diagram α) (f : Node α → Nat) : Nat :=
  g.nodes.values.foldr (fun n total => f n + total) 0

/-- Whether `id` is listed as an input. -/
def isInput (g : Diagram α) (id : Nat) : Bool := g.inputs.contains id

/-- Whether `id` is listed as an output. -/
def isOutput (g : Diagram α) (id : Nat) : Bool := g.outputs.contains id

/-- Whether `id` is listed as an input or an output. -/
def isTerminal (g : Diagram α) (id : Nat) : Bool := g.isInput id || g.isOutput id

/-! ## Changes that cannot fail -/

/-- Applies `f` to the node stored under `id`, if any. -/
def updateNode (g : Diagram α) (id : Nat) (f : Node α → Node α) : Diagram α :=
  { g with nodes := g.nodes.modify id f }

/-- Labels the node stored under `id`, if any, with `label`. -/
def relabel (g : Diagram α) (id : Nat) (label : α) : Diagram α :=
  g.updateNode id (·.relabel label)

/-- Replaces the inputs, repeats left out. The ids need not name nodes. -/
def setInputs (g : Diagram α) (ids : List Nat) : Diagram α := { g with inputs := ids.eraseDups }

/-- Replaces the outputs, repeats left out. The ids need not name nodes. -/
def setOutputs (g : Diagram α) (ids : List Nat) : Diagram α := { g with outputs := ids.eraseDups }

/-- Adds an input terminal after the present ones. -/
def pushInput (g : Diagram α) (id : Nat) : Diagram α := { g with inputs := g.inputs ++ [id] }

/-- Adds an output terminal after the present ones. -/
def pushOutput (g : Diagram α) (id : Nat) : Diagram α := { g with outputs := g.outputs ++ [id] }

end Diagram

end Wiring
