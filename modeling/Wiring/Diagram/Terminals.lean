import Wiring.Diagram.Nodes

/-!
# Opening terminals

The terminals of a diagram are its inputs and outputs. A node becomes one in two ways: an existing
node of the right arity is declared a terminal, or a fresh node is attached to an existing one.

## Main definitions

- `Edit.markInput`, `Edit.markOutput` — declare an existing node a terminal
- `Edit.addInputAt`, `Edit.addOutputAt` — attach a fresh terminal to an existing node
-/

namespace Wiring

namespace Diagram

variable {α : Type}

/-- An input has no parents and a single edge out, and is no output. -/
def checkMarkInput [Words] (g : Diagram α) (id : Nat) : Except Fault Unit := do
  let n ← g.find id
  if 0 < n.indegree then .error (.terminal id .hasParents)
  else if n.children.single?.isNone then .error (.terminal id .notOneChild)
  else if g.isOutput id then .error (.terminal id .bothEnds)
  else .ok ()

/-- An output has no children and a single edge in, and is no input. -/
def checkMarkOutput [Words] (g : Diagram α) (id : Nat) : Except Fault Unit := do
  let n ← g.find id
  if 0 < n.outdegree then .error (.terminal id .hasChildren)
  else if n.parents.single?.isNone then .error (.terminal id .notOneParent)
  else if g.isInput id then .error (.terminal id .bothEnds)
  else .ok ()

/-- A fresh input may feed any node but an input and an output that is fed already. -/
def checkInputAt [Words] (g : Diagram α) (id : Nat) : Except Fault Unit := do
  let n ← g.find id
  if g.isInput id then .error (.terminal id .isInput)
  else if g.isOutput id && decide (0 < n.indegree) then .error (.terminal id .hasParents)
  else .ok ()

/-- A fresh output may be fed by any node but an output and an input that feeds one already. -/
def checkOutputAt [Words] (g : Diagram α) (id : Nat) : Except Fault Unit := do
  let n ← g.find id
  if g.isOutput id then .error (.terminal id .isOutput)
  else if g.isInput id && decide (0 < n.outdegree) then .error (.terminal id .hasChildren)
  else .ok ()

end Diagram

namespace Edit

variable {α : Type}

/-- Declares a node an input. Nothing changes if it is one. -/
def markInput [Words] (id : Nat) : Edit α Unit := do
  ask (·.checkMarkInput id)
  change fun g => if g.isInput id then g else g.pushInput id

/-- Declares a node an output. Nothing changes if it is one. -/
def markOutput [Words] (id : Nat) : Edit α Unit := do
  ask (·.checkMarkOutput id)
  change fun g => if g.isOutput id then g else g.pushOutput id

variable [Inhabited α]

/-- Attaches a fresh input, with the default label, above a node and answers its id. -/
def addInputAt [Words] (id : Nat) : Edit α Nat := do
  ask (·.checkInputAt id)
  let terminal ← addNode default [] [id]
  change (·.pushInput terminal)
  pure terminal

/-- Attaches a fresh output, with the default label, below a node and answers its id. -/
def addOutputAt [Words] (id : Nat) : Edit α Nat := do
  ask (·.checkOutputAt id)
  let terminal ← addNode default [id] []
  change (·.pushOutput terminal)
  pure terminal

end Edit

end Wiring
