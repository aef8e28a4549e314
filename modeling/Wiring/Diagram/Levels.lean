import Wiring.Diagram.Acyclic

/-!
# Levels

The nodes of an acyclic diagram other than its inputs, arranged in levels. The first level holds the
children of the inputs and the parentless nodes; each further level holds the children of the one
before that have no place yet. So a node stands in the first level that reaches it.

## Main definitions

- `Diagram.levels` — the levels, each in ascending id order
- `Diagram.levelOf` — the level of a node
- `Diagram.depth` — the number of levels
-/

namespace Wiring

namespace Diagram

variable {α : Type}

/-- Arranges the unplaced nodes, the first level being those among the candidates. A candidate that
    is no node is an error unless it is an input, which has no level anyway. -/
def levelsFrom (g : Diagram α) (unplaced : IdMap (Node α)) (candidates : List Nat) :
    Except Fault (List (List Nat)) :=
  match candidates.find? fun id => !(g.isInput id || g.contains id) with
  | some id => .error (.dangling id)
  | none =>
    let level := unplaced.filter fun id _ => candidates.contains id
    let rest := unplaced.filter fun id _ => !candidates.contains id
    if level.isEmpty then .ok []
    else
      match g.levelsFrom rest (level.values.flatMap (·.children.keys)) with
      | .error fault => .error fault
      | .ok levels => .ok (level.keys :: levels)
termination_by unplaced.size
decreasing_by
  rename_i hlevel
  have hpos := IdMap.size_pos_of_isEmpty_eq_false (by simpa using hlevel)
  have hsum := IdMap.size_filter_add_size_filter_not (m := unplaced)
    (p := fun id _ => candidates.contains id)
  simp only [level] at hpos
  omega

/-- The children of the inputs, and the nodes without parents. -/
def seeds [Words] (g : Diagram α) : Except Fault (List Nat) := do
  let inputs ← g.inputs.mapM g.fetch
  let roots := g.nodes.values.filter (·.indegree == 0)
  .ok (inputs.flatMap (·.children.keys) ++ roots.map (·.id))

/-- **The levels of an acyclic diagram**, each in ascending id order. -/
def levels [Words] (g : Diagram α) : Except Fault (List (List Nat)) := do
  if ← g.isCyclic then .error .cyclic
  else do
    let seeds ← g.seeds
    g.levelsFrom (g.nodes.filter fun id _ => !g.isInput id) seeds

/-- The level in which a node stands; an input stands in none. -/
def levelOf [Words] (g : Diagram α) (id : Nat) : Except Fault (Option Nat) := do
  let _ ← g.find id
  let levels ← g.levels
  .ok (levels.findIdx? (·.contains id))

/-- The number of levels. -/
def depth [Words] (g : Diagram α) : Except Fault Nat := do
  let levels ← g.levels
  .ok levels.length

end Diagram

end Wiring
