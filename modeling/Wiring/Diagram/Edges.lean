import Wiring.Diagram.Edit

/-!
# Adding and removing edges

An edge is recorded at both of its ends: as a child at its source and as a parent at its target.
Every operation here changes the two ends together.

## Main definitions

- `Diagram.join` — parallel edges from one node to another
- `Diagram.dropEdge`, `Diagram.dropEdges` — one edge less for each listed pair
- `Diagram.sever` — no edges between two nodes, in either direction
- `Diagram.checkEdge` — whether the terminals allow an edge
- `Edit.addEdge`, `Edit.addEdges`, `Edit.removeEdge` — edits that are refused on bad requests
-/

namespace Wiring

namespace Diagram

variable {α : Type}

/-- Records `m` more edges from `s` to `t`, at each end that exists. -/
def join [Words] (g : Diagram α) (s t m : Nat) : Diagram α :=
  (g.updateNode s (·.addChild t m)).updateNode t (·.addParent s m)

/-- Records one more edge for each pair of a source and a target. -/
def joinAll [Words] (g : Diagram α) (edges : List (Nat × Nat)) : Diagram α :=
  edges.foldl (fun g e => g.join e.1 e.2 1) g

/-- Removes one edge from `s` to `t`. Nothing happens unless both nodes exist. -/
def dropEdge (g : Diagram α) (s t : Nat) : Diagram α :=
  if g.contains s && g.contains t then
    (g.updateNode s (·.dropChildEdge t)).updateNode t (·.dropParentEdge s)
  else g

/-- Removes one edge for each pair of a source and a target. -/
def dropEdges (g : Diagram α) (edges : List (Nat × Nat)) : Diagram α :=
  edges.foldl (fun g e => g.dropEdge e.1 e.2) g

/-- Removes all edges from `s` to `t`. -/
def cut (g : Diagram α) (s t : Nat) : Diagram α :=
  (g.updateNode s (·.eraseChild t)).updateNode t (·.eraseParent s)

/-- Removes all edges between `a` and `b`, in both directions. Nothing happens unless both nodes
    exist. -/
def sever (g : Diagram α) (a b : Nat) : Diagram α :=
  if g.contains a && g.contains b then (g.cut a b).cut b a else g

/-- Severs each listed pair. -/
def severAll (g : Diagram α) (pairs : List (Nat × Nat)) : Diagram α :=
  pairs.foldl (fun g e => g.sever e.1 e.2) g

/-- An edge joins nodes that exist; it does not leave an output, nor enter an input. -/
def checkEdge (g : Diagram α) (s t : Nat) : Except Fault Unit :=
  if !g.contains s then .error (.unknownNode s)
  else if !g.contains t then .error (.unknownNode t)
  else if g.isOutput s then .error (.terminal s .edgeFromOutput)
  else if g.isInput t then .error (.terminal t .edgeIntoInput)
  else .ok ()

/-- Every listed edge passes, or the first that does not decides. -/
def checkEdges (g : Diagram α) : List (Nat × Nat) → Except Fault Unit
  | [] => .ok ()
  | e :: es =>
    match g.checkEdge e.1 e.2 with
    | .ok () => g.checkEdges es
    | .error fault => .error fault

end Diagram

namespace Edit

variable {α : Type}

/-- Adds an edge from `s` to `t`. -/
def addEdge [Words] (s t : Nat) : Edit α Unit := do
  ask (·.checkEdge s t)
  change (·.join s t 1)

/-- Adds all listed edges, once every one of them has passed the check. -/
def addEdges [Words] (edges : List (Nat × Nat)) : Edit α Unit := do
  ask (·.checkEdges edges)
  change (·.joinAll edges)

/-- Removes an edge from `s` to `t`, if there is one between these existing nodes. -/
def removeEdge (s t : Nat) : Edit α Unit := do
  let _ ← ask (·.find s)
  let _ ← ask (·.find t)
  change (·.dropEdge s t)

end Edit

end Wiring
