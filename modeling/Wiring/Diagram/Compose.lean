import Wiring.Diagram.Nodes
import Wiring.Diagram.Renumber

/-!
# Composition

Diagrams with `m` inputs and `n` outputs are arrows from `m` to `n`. They compose in sequence, the
outputs of one glued onto the inputs of the next, and in parallel, one beside the other. Operands
are copied and renumbered, so that a diagram may be composed with itself.

## Main definitions

- `Diagram.source`, `Diagram.target` — the numbers of inputs and of outputs
- `Diagram.identity` — bare wires
- `Diagram.beside`, `Diagram.besideAll`, `Diagram.parallel`, `Diagram.tensor` — parallel composition
- `Diagram.glue`, `Diagram.compose` — sequential composition
-/

namespace Wiring

namespace Diagram

variable {α : Type}

/-- The number of inputs. -/
def source (g : Diagram α) : Nat := g.inputs.length

/-- The number of outputs. -/
def target (g : Diagram α) : Nat := g.outputs.length

/-- The number of wires of the diagram that is neutral for parallel composition. -/
def unitWires : Nat := 0

/-! ## Wires -/

/-- Adds a bare wire: a new input and a new output joined by an edge. -/
def addWire [Words] [Inhabited α] (g : Diagram α) : Diagram α :=
  let i := g.nextId
  let o := Words.wrap (g.nextId + 1)
  { nodes := (g.nodes.insert i (.ofEdges i default [] [(o, 1)])).insert o
      (.ofEdges o default [(i, 1)] [])
    inputs := g.inputs ++ [i]
    outputs := g.outputs ++ [o]
    nextId := Words.wrap (g.nextId + 2) }

/-- **The diagram of `n` bare wires.** -/
def identity [Words] [Inhabited α] : Nat → Diagram α
  | 0 => empty
  | n + 1 => (identity n).addWire

/-! ## Parallel composition -/

/-- **Puts `g` beside `f`**: the ids of `g` are raised clear of `f`, and the terminals of `g` follow
    those of `f`. -/
def beside [Words] (f g : Diagram α) : Diagram α :=
  let g := g.apartFrom f
  { nodes := f.nodes.union g.nodes
    inputs := f.inputs ++ g.inputs
    outputs := f.outputs ++ g.outputs
    nextId := max f.nextId g.nextId }

/-- Puts the listed diagrams beside `f`, one after the other. -/
def besideAll [Words] (f : Diagram α) (gs : List (Diagram α)) : Diagram α := gs.foldl beside f

/-- The listed diagrams side by side. -/
def parallel [Words] (gs : List (Diagram α)) : Diagram α := empty.besideAll gs

/-- Two diagrams side by side. -/
def tensor [Words] (f g : Diagram α) : Diagram α := parallel [f, g]

/-! ## Sequential composition -/

/-- The node that feeds the output `o`, by a single edge. -/
def feeder (g : Diagram α) (o : Nat) : Except Fault Nat := do
  let n ← g.find o
  match n.parents.single? with
  | some p => .ok p
  | none => .error (.terminal o .unfedOutput)

/-- The nodes that feed the outputs, in the order of the outputs. -/
def feeders (g : Diagram α) : Except Fault (List Nat) := g.outputs.mapM g.feeder

/-- `g` can be glued after `f` if it has as many inputs as `f` has outputs, and every output of `f`
    has something to glue. Answers the nodes that feed the outputs of `f`. -/
def checkGlue (f g : Diagram α) : Except Fault (List Nat) :=
  if f.outputs.length = g.inputs.length then f.feeders
  else .error (.arity f.outputs.length g.inputs.length)

/-- **Glues `g` after `f`.** The ids of `g` are raised clear of `f`; the outputs of `f` go, and the
    nodes that fed them are joined to the inputs of `g`, which become inner nodes. -/
def glue [Words] (f : Diagram α) (feeders : List Nat) (g : Diagram α) : Diagram α :=
  let g := g.apartFrom f
  let joint : Diagram α :=
    { nodes := f.nodes.union g.nodes
      inputs := f.inputs
      outputs := []
      nextId := max f.nextId g.nextId }
  let joint := (joint.removeNodes f.outputs).joinAll (feeders.zip g.inputs)
  { joint with outputs := g.outputs }

/-- Sequential composition, first `f` and then `g`. -/
def compose [Words] (f g : Diagram α) : Except Fault (Diagram α) := do
  let feeders ← f.checkGlue g
  .ok (f.glue feeders g)

end Diagram

namespace Edit

variable {α : Type}

/-- Glues `g` after the diagram. -/
def glue [Words] (g : Diagram α) : Edit α Unit := do
  let feeders ← ask (·.checkGlue g)
  change (·.glue feeders g)

end Edit

end Wiring
