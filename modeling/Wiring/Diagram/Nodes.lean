import Wiring.Diagram.Edges

/-!
# Adding, relabelling and removing nodes

## Main definitions

- `Diagram.attach` — a new node joined to given parents and children
- `Diagram.removeNode`, `Diagram.removeNodes` — nodes leave with their edges and terminals
- `Diagram.checkNeighbours` — whether the terminals allow the edges of a new node
- `Edit.addNode`, `Edit.setLabel`, `Edit.removeNode` — edits that are refused on bad requests
-/

namespace Wiring

namespace Diagram

variable {α : Type}

/-- Adds a node under the next id, with an edge from each listed parent and to each listed child;
    a repeated neighbour gets parallel edges. A node that has the next id already is lost, as it may
    have after ids have wrapped around. -/
def attach [Words] (g : Diagram α) (label : α) (parents children : List Nat) : Diagram α :=
  let id := g.nextId
  let g := { g with nodes := g.nodes.insert id (.isolated id label), nextId := Words.wrap (id + 1) }
  (g.joinAll (parents.map (·, id))).joinAll (children.map (id, ·))

/-- A new node's neighbours exist; no parent is an output and no child an input. Missing nodes are
    reported first, and parents before children. -/
def checkNeighbours (g : Diagram α) (parents children : List Nat) : Except Fault Unit :=
  match (parents ++ children).find? (!g.contains ·) with
  | some id => .error (.unknownNode id)
  | none =>
    match parents.find? (g.isOutput ·) with
    | some p => .error (.terminal p .edgeFromOutput)
    | none =>
      match children.find? (g.isInput ·) with
      | some c => .error (.terminal c .edgeIntoInput)
      | none => .ok ()

/-- What the node `n` under `k` looks like once its neighbour `gone`, stored under `id`, has left.
    Only those that `gone` counts among its neighbours forget it. -/
def forget (id : Nat) (gone : Node α) (k : Nat) (n : Node α) : Node α :=
  { n with
    children := if gone.parents.contains k then n.children.erase id else n.children
    parents := if gone.children.contains k then n.parents.erase id else n.parents }

/-- Removes the node under `id`, if any: its neighbours forget it and it is no terminal any more. -/
def removeNode (g : Diagram α) (id : Nat) : Diagram α :=
  match g.node? id with
  | none => g
  | some gone =>
    { g with
      nodes := (g.nodes.erase id).map (forget id gone)
      inputs := g.inputs.filter (· != id)
      outputs := g.outputs.filter (· != id) }

/-- Removes the listed nodes; ids without a node are passed over. -/
def removeNodes (g : Diagram α) (ids : List Nat) : Diagram α := ids.foldl removeNode g

end Diagram

namespace Edit

variable {α : Type}

/-- Adds a node joined to the listed parents and children, and answers its id. -/
def addNode [Words] (label : α) (parents children : List Nat) : Edit α Nat := do
  ask (·.checkNeighbours parents children)
  let g ← get
  change (·.attach label parents children)
  pure g.nextId

/-- Replaces the label of a node. -/
def setLabel (id : Nat) (label : α) : Edit α Unit := do
  let _ ← ask (·.find id)
  change (·.relabel id label)

/-- Removes a node that must exist. -/
def removeNode (id : Nat) : Edit α Unit := do
  let _ ← ask (·.find id)
  change (·.removeNode id)

end Edit

end Wiring
