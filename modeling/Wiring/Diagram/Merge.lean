import Wiring.Diagram.Edges

/-!
# Merging two nodes

Merging `b` into `a` moves every edge of `b` onto `a`, edges between the two becoming loops on `a`,
and gives `a` the terminal slots of `b`.

## Main definitions

- `Diagram.merge` — the merged diagram
- `Diagram.checkMerge` — whether the merged node would still be a valid terminal
- `Edit.merge`, `Edit.mergeTakingLabel` — the edits, which keep the label of `a` or take that of `b`
-/

namespace Wiring

namespace Diagram

variable {α : Type}

/-- If one of the nodes is an input then neither has parents, and the merged node is the only input
    and has at most one edge out. -/
def checkMergeInputs [Words] (g : Diagram α) (a b : Nat) (nodeA nodeB : Node α) :
    Except Fault Unit :=
  if !(g.isInput a || g.isInput b) then .ok ()
  else if 0 < nodeB.indegree then .error (.terminal b .hasParents)
  else if 0 < nodeA.indegree then .error (.terminal a .hasParents)
  else if (g.isInput a && g.isInput b)
      || decide (1 < Words.wrap (nodeA.outdegree + nodeB.outdegree)) then
    .error (.terminal (if g.isInput a then b else a) .notOneChild)
  else .ok ()

/-- If one of the nodes is an output then neither has children, and the merged node is the only
    output and has at most one edge in. -/
def checkMergeOutputs [Words] (g : Diagram α) (a b : Nat) (nodeA nodeB : Node α) :
    Except Fault Unit :=
  if !(g.isOutput a || g.isOutput b) then .ok ()
  else if 0 < nodeB.outdegree then .error (.terminal b .hasChildren)
  else if 0 < nodeA.outdegree then .error (.terminal a .hasChildren)
  else if (g.isOutput a && g.isOutput b)
      || decide (1 < Words.wrap (nodeA.indegree + nodeB.indegree)) then
    .error (.terminal (if g.isOutput a then b else a) .notOneParent)
  else .ok ()

/-- Both nodes exist and, unless they are one, the merged node can stay the terminal that either
    is. -/
def checkMerge [Words] (g : Diagram α) (a b : Nat) : Except Fault Unit := do
  let nodeA ← g.find a
  let nodeB ← g.find b
  if a = b then .ok ()
  else do
    g.checkMergeInputs a b nodeA nodeB
    g.checkMergeOutputs a b nodeA nodeB

/-- Takes over the edges into `b` as edges into `a`; a loop on `b` becomes a loop on `a`. -/
def adoptParents [Words] (g : Diagram α) (a b : Nat) (parents : Tally) : Diagram α :=
  parents.entries.foldl
    (fun g e =>
      if e.1 = b then g.join a a e.2
      else (g.updateNode e.1 (·.eraseChild b)).join e.1 a e.2) g

/-- Takes over the edges out of `b` as edges out of `a`, apart from loops on `b`. -/
def adoptChildren [Words] (g : Diagram α) (a b : Nat) (children : Tally) : Diagram α :=
  children.entries.foldl
    (fun g e =>
      if e.1 = b then g
      else (g.updateNode e.1 (·.eraseParent b)).join a e.1 e.2) g

/-- **Merges `b` into `a`.** Merging a node with itself changes nothing. -/
def merge [Words] (g : Diagram α) (a b : Nat) : Diagram α :=
  if a = b then g
  else
    match g.node? b with
    | none => g
    | some n =>
      let g := { g with nodes := g.nodes.erase b }
      let g := (g.adoptParents a b n.parents).adoptChildren a b n.children
      { g with
        inputs := g.inputs.map fun i => if i = b then a else i
        outputs := g.outputs.map fun o => if o = b then a else o }

/-- Merges `b` into `a` and gives the merged node the label of `b`. -/
def mergeTakingLabel [Words] (g : Diagram α) (a b : Nat) : Diagram α :=
  match g.label? b with
  | none => g
  | some label => (g.merge a b).relabel a label

end Diagram

namespace Edit

variable {α : Type}

/-- Merges `b` into `a`, which keeps its label. -/
def merge [Words] (a b : Nat) : Edit α Unit := do
  ask (·.checkMerge a b)
  change (·.merge a b)

/-- Merges `b` into `a`, which takes the label of `b`. -/
def mergeTakingLabel [Words] (a b : Nat) : Edit α Unit := do
  ask (·.checkMerge a b)
  change (·.mergeTakingLabel a b)

end Edit

end Wiring
