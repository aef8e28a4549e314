import Wiring.Diagram.Edit

/-!
# Renumbering

Diagrams made independently of each other use the same ids. Before two of them are put into one, the
ids of the second are raised above all that the first uses or has given out.

## Main definitions

- `Diagram.shift` — raises every id
- `Diagram.clearance` — how far to raise the ids of a diagram to clear another
- `Diagram.apartFrom` — the diagram raised by that much
- `Diagram.rangesApart` — whether the id ranges of two diagrams are apart
-/

namespace Wiring

namespace Diagram

variable {α : Type}

/-- The smallest id of a node. -/
def minId? (g : Diagram α) : Option Nat := g.nodes.minKey?

/-- The largest id of a node. -/
def maxId? (g : Diagram α) : Option Nat := g.nodes.maxKey?

/-- The ranges of ids do not overlap. A diagram without nodes is apart from every other. -/
def rangesApart (g h : Diagram α) : Bool :=
  match g.minId?, g.maxId?, h.minId?, h.maxId? with
  | some gLow, some gHigh, some hLow, some hHigh => decide (gHigh < hLow) || decide (hHigh < gLow)
  | _, _, _, _ => true

/-- **Raises every id by `d`**: those of nodes, of their neighbours and of terminals, and the id to
    be given out next. Nodes are stored afresh under the ids they go by; of two whose ids fall
    together, as they may when ids wrap around, the later is kept. -/
def shift [Words] (g : Diagram α) (d : Nat) : Diagram α :=
  if d = 0 then g
  else
    { nodes := IdMap.ofList (g.nodes.values.map fun n => ((n.shift d).id, n.shift d))
      inputs := g.inputs.map fun i => Words.wrap (i + d)
      outputs := g.outputs.map fun o => Words.wrap (o + d)
      nextId := Words.wrap (g.nextId + d) }

/-- The least distance by which to raise the ids of `g` so that its nodes are above the nodes of
    `h` and above every id that `h` has given out, which are all below the next one. None if either
    has no nodes. -/
def clearance [Words] (g h : Diagram α) : Nat :=
  match g.minId?, h.maxId? with
  | some low, some high => Words.wrap (max high (h.nextId - 1) + 1) - low
  | _, _ => 0

/-- Raises the ids of `g` clear of `h`. -/
def apartFrom [Words] (g h : Diagram α) : Diagram α := g.shift (g.clearance h)

end Diagram

namespace Edit

variable {α : Type}

/-- Raises the ids of the diagram clear of `h` and answers by how much. -/
def apartFrom [Words] (h : Diagram α) : Edit α Nat := do
  let g ← get
  change (·.apartFrom h)
  pure (g.clearance h)

end Edit

end Wiring
