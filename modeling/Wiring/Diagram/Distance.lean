import Wiring.Diagram.Basic
import Wiring.IdMap.Lemmas

/-!
# Distances

Breadth-first search from a node. Every edge has length 1, and the search may follow edges forwards,
backwards or both ways. What it leaves is a trail: for each node reached its distance and the
node it was reached from.

## Main definitions

- `Direction` — which edges a search follows
- `Trail`, `Mark` — what a search leaves
- `Diagram.distances` — the trail of a breadth-first search
- `Trail.pathTo?` — the path that a trail records
- `Diagram.shortestPath` — a shortest directed path
- `Diagram.commonAncestors` — the strict common ancestors of two nodes, with their distances
-/

namespace Wiring

/-- **Which edges a search follows.** -/
inductive Direction where
  /-- From a node to its children. -/
  | children
  /-- From a node to its parents. -/
  | parents
  /-- Both ways. -/
  | both
deriving DecidableEq

instance : Inhabited Direction := ⟨.both⟩

/-- The neighbours to which the search goes on from a node. -/
def Node.neighbours {α : Type} (n : Node α) : Direction → List Nat
  | .children => n.children.keys
  | .parents => n.parents.keys
  | .both => n.children.keys ++ n.parents.keys

/-- What a search notes down at a node. -/
structure Mark where
  /-- The number of edges from the source. -/
  distance : Nat
  /-- The node from which this one was reached; none for the source. -/
  via : Option Nat
deriving DecidableEq

/-- **The marks that a search leaves** at the nodes it has reached. -/
abbrev Trail := IdMap Mark

namespace Trail

/-- The trail at the start of a search. -/
def start (source : Nat) : Trail := IdMap.empty.insert source ⟨0, none⟩

/-- The distance of each node reached. -/
def distances (t : Trail) : IdMap Nat := t.map fun _ mark => mark.distance

/-- The node from which each node but the source was reached. -/
def predecessors (t : Trail) : IdMap Nat := t.filterMap fun _ mark => mark.via

/-- Follows predecessors back from `cur` to `source` and lists the nodes on the way, `source`
    first. No predecessor is used twice. -/
def retrace (predecessors : IdMap Nat) (source cur : Nat) : Option (List Nat) :=
  if cur = source then some [cur]
  else
    match _ : predecessors.get? cur with
    | none => none
    | some p => (retrace (predecessors.erase cur) source p).map (· ++ [cur])
termination_by predecessors.size
decreasing_by exact IdMap.size_erase_lt ‹_›

/-- The path to `target` that the trail records, both ends included. -/
def pathTo? (t : Trail) (source target : Nat) : Option (List Nat) :=
  retrace t.predecessors source target

end Trail

/-- Queues and marks a neighbour `v` of `u`, unless it has a mark. -/
def discover (u distance : Nat) (s : List Nat × Trail) (v : Nat) : List Nat × Trail :=
  if s.2.contains v then s else (s.1 ++ [v], s.2.insert v ⟨distance + 1, some u⟩)

/-- Searches on from the queue, until the target is next or the queue is empty. A queued node that
    is not among the unvisited ones does not exist, because none is queued twice. -/
def searchFrom {α : Type} (direction : Direction) (target : Option Nat)
    (unvisited : IdMap (Node α)) (queue : List Nat) (trail : Trail) : Except Fault Trail :=
  match queue with
  | [] => .ok trail
  | u :: rest =>
    if target = some u then .ok trail
    else
      match _ : unvisited.get? u with
      | none => .error (.dangling u)
      | some n =>
        let distance := ((trail.get? u).map (·.distance)).getD 0
        let (queue, trail) := (n.neighbours direction).foldl (discover u distance) (rest, trail)
        searchFrom direction target (unvisited.erase u) queue trail
termination_by unvisited.size
decreasing_by exact IdMap.size_erase_lt ‹_›

namespace Diagram

variable {α : Type}

/-- A target that is asked for must exist. -/
def checkTarget (g : Diagram α) : Option Nat → Except Fault Unit
  | none => .ok ()
  | some t => do
    let _ ← g.find t
    .ok ()

/-- **Breadth-first search** from `source`. With a target it stops as soon as the target is next;
    the marks made by then stand. -/
def distances (g : Diagram α) (source : Nat) (target : Option Nat) (direction : Direction) :
    Except Fault Trail := do
  let _ ← g.find source
  g.checkTarget target
  searchFrom direction target g.nodes [source] (Trail.start source)

/-- A shortest directed path from `source` to `target`, both included, if there is any. -/
def shortestPath (g : Diagram α) (source target : Nat) : Except Fault (Option (List Nat)) := do
  let trail ← g.distances source (some target) .children
  .ok (trail.pathTo? source target)

/-- The nodes other than terminals that are strict ancestors of both `a` and `b`, with their
    distances to `a` and to `b`. -/
def commonAncestors (g : Diagram α) (a b : Nat) : Except Fault (IdMap (Nat × Nat)) := do
  let trailA ← g.distances a none .parents
  let trailB ← g.distances b none .parents
  .ok (trailA.filterMap fun id markA =>
    match markA.via, trailB.get? id with
    | some _, some ⟨distanceB, some _⟩ =>
      if g.isTerminal id then none else some (markA.distance, distanceB)
    | _, _ => none)

end Diagram

end Wiring
