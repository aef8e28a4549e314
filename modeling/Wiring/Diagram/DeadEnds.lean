import Wiring.Diagram.Nodes

/-!
# Dead ends

A node without children that is no output contributes to nothing. Pruning removes such nodes, and
those that lose their last child by it, until none is left.

## Main definitions

- `Diagram.deadEnds` — the childless nodes that are no outputs
- `Diagram.prune` — the diagram without dead ends, and how many were removed
- `Edit.prune` — pruning as an edit
-/

namespace Wiring

namespace Diagram

variable {α : Type}

/-- The childless nodes that are no outputs, by the ids that they go by. -/
def deadEnds [Words] (g : Diagram α) : List Nat :=
  (g.nodes.values.filter fun n => n.outdegree == 0 && !g.isOutput n.id).map (·.id)

/-- **Removes dead ends until none is left**, and counts them. A dead end that is stored under
    another id than its own is not found; if there is nothing but such then pruning ends. -/
def prune [Words] (g : Diagram α) : Diagram α × Nat :=
  if g.deadEnds.isEmpty then (g, 0)
  else
    let smaller := g.removeNodes g.deadEnds
    if smaller.size < g.size then
      let (pruned, count) := smaller.prune
      (pruned, g.deadEnds.length + count)
    else (smaller, g.deadEnds.length)
termination_by g.size

theorem prune_eq [Words] (g : Diagram α) : g.prune =
    if g.deadEnds.isEmpty then (g, 0)
    else if (g.removeNodes g.deadEnds).size < g.size then
      ((g.removeNodes g.deadEnds).prune.1,
        g.deadEnds.length + (g.removeNodes g.deadEnds).prune.2)
    else (g.removeNodes g.deadEnds, g.deadEnds.length) := by
  rw [prune]

/-- What removing the dead ends of a diagram keeps, pruning keeps. -/
theorem of_prune [Words] {P : Diagram α → Prop} (h : ∀ g, P g → P (g.removeNodes g.deadEnds))
    {g : Diagram α} (hg : P g) : P g.prune.1 := by
  induction g using prune.induct with
  | case1 g hnone =>
    rw [prune_eq, if_pos hnone]
    exact hg
  | case2 g hsome smaller hsmaller pruned count hrest ih =>
    rw [prune_eq, if_neg hsome, if_pos hsmaller]
    exact ih (h g hg)
  | case3 g hsome smaller hsmaller =>
    rw [prune_eq, if_neg hsome, if_neg hsmaller]
    exact h g hg

end Diagram

namespace Edit

variable {α : Type}

/-- Removes all dead ends and answers how many there were. -/
def prune [Words] : Edit α Nat := do
  let g ← get
  change fun _ => g.prune.1
  pure g.prune.2

end Edit

end Wiring
