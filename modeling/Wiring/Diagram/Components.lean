import Wiring.Diagram.Basic
import Wiring.IdMap.Lemmas

/-!
# Connected components

The components of a diagram when the direction of edges is ignored, found by flooding from one node
after the other, and the diagram split along them.

## Main definitions

- `Diagram.componentsFrom` — the component of every node flooded from the given seeds
- `Diagram.connectedComponents` — the components, numbered in the order of their smallest ids
- `Diagram.parts` — the diagram of each component
-/

namespace Wiring

/-- Gives `v` the index of the flood; a node that had none before is flooded in turn. -/
def flow (index : Nat) (s : List Nat × IdMap Nat) (v : Nat) : List Nat × IdMap Nat :=
  (if s.2.contains v then s.1 else v :: s.1, s.2.insert v index)

/-- Floods from the stacked nodes along edges in both directions. A stacked node that is not among
    the dry ones does not exist, because none is stacked twice. -/
def floodFrom {α : Type} (index : Nat) (dry : IdMap (Node α)) (stack : List Nat)
    (component : IdMap Nat) : Except Fault (IdMap Nat) :=
  match stack with
  | [] => .ok component
  | u :: rest =>
    match _ : dry.get? u with
    | none => .error (.dangling u)
    | some n =>
      let (stack, component) :=
        (n.children.keys ++ n.parents.keys).foldl (flow index) (rest, component)
      floodFrom index (dry.erase u) stack component
termination_by dry.size
decreasing_by exact IdMap.size_erase_lt ‹_›

/-- Numbers the components by their smallest ids: the values of ascending keys count up as they
    appear. -/
def canonicalNumbering (component : IdMap Nat) : IdMap Nat :=
  let appearances := component.values.eraseDups
  component.map fun _ c => appearances.idxOf c

namespace Diagram

variable {α : Type}

/-- Floods from each seed that exists and is not flooded yet: the number of floods, and the index
    of the last one to reach each node. -/
def floodSeeds (g : Diagram α) : List Nat → Nat → IdMap Nat → Except Fault (Nat × IdMap Nat)
  | [], count, component => .ok (count, component)
  | seed :: seeds, count, component =>
    if component.contains seed || !g.contains seed then g.floodSeeds seeds count component
    else
      match floodFrom count g.nodes [seed] (component.insert seed count) with
      | .error fault => .error fault
      | .ok component => g.floodSeeds seeds (count + 1) component

/-- **The components reached from the seeds**: their number, and the number of each node's. -/
def componentsFrom (g : Diagram α) (seeds : List Nat) : Except Fault (Nat × IdMap Nat) := do
  let (count, component) ← g.floodSeeds seeds 0 IdMap.empty
  .ok (count, canonicalNumbering component)

/-- The components of all nodes, numbered in the order of their smallest ids. -/
def connectedComponents (g : Diagram α) : Except Fault (Nat × IdMap Nat) :=
  g.componentsFrom g.ids

/-- The part of the diagram that the listed ids span. -/
def part [Words] (g : Diagram α) (ids : List Nat) : Diagram α :=
  { ofNodes (g.inputs.filter ids.contains) (g.outputs.filter ids.contains)
      (ids.filterMap g.node?) with
    nextId := g.nextId }

/-- **The diagram of each component**, in the order of their numbers. Ids and the order of terminals
    are kept. -/
def parts [Words] (g : Diagram α) : Except Fault (List (Diagram α)) := do
  let (count, component) ← g.connectedComponents
  .ok ((List.range count).map fun i => g.part (component.filter fun _ c => c == i).keys)

end Diagram

end Wiring
