import Wiring.Diagram.Acyclic
import Wiring.Diagram.Distance

/-!
# Longest paths

In an acyclic diagram longest paths exist and are found by visiting the nodes in topological order,
each raising the marks of its children.

## Main definitions

- `Trail.raise` — a longer way to a node replaces a shorter one
- `Diagram.longestPath` — a longest directed path and its length
-/

namespace Wiring

/-- Marks the child `v` of `u`, unless it has a mark that is at least as far. -/
def Trail.raise (u distance : Nat) (t : Trail) (v : Nat) : Trail :=
  match t.get? v with
  | none => t.insert v ⟨distance + 1, some u⟩
  | some mark => if mark.distance < distance + 1 then t.insert v ⟨distance + 1, some u⟩ else t

namespace Diagram

variable {α : Type}

/-- Visits the listed nodes up to the target. Nodes without a mark are not reached and passed
    over. -/
def raiseAlong (g : Diagram α) (target : Nat) : List Nat → Trail → Except Fault Trail
  | [], trail => .ok trail
  | u :: order, trail =>
    match trail.get? u with
    | none => g.raiseAlong target order trail
    | some mark =>
      if u = target then .ok trail
      else
        match g.fetch u with
        | .error fault => .error fault
        | .ok n =>
          g.raiseAlong target order (n.children.keys.foldl (Trail.raise u mark.distance) trail)

/-- **A longest directed path** from `source` to `target`, both included, and its number of edges,
    if there is any path. -/
def longestPath [Words] (g : Diagram α) (source target : Nat) :
    Except Fault (Option (List Nat × Nat)) := do
  let _ ← g.find source
  let _ ← g.find target
  let order ← g.topologicalOrder
  let trail ← g.raiseAlong target (order.dropWhile (· != source)) (Trail.start source)
  match trail.get? target with
  | none => .ok none
  | some mark => .ok ((trail.pathTo? source target).map (·, mark.distance))

end Diagram

end Wiring
