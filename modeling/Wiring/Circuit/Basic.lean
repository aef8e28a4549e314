import Wiring.Diagram.Acyclic
import Wiring.Diagram.Compose
import Wiring.Diagram.WellFormed
import Wiring.Gate

/-!
# Boolean circuits

A circuit is a diagram labelled with gates. Whoever makes one from a diagram checks that it has no
directed cycle; edits may break that rule again, and the arity of gates is asked for only by
`Circuit.isWellFormed`, because circuits break it while they are built and reduced.

## Main definitions

- `Circuit`, `Circuit.ofDiagram` — circuits and the check for cycles
- `Circuit.isWellFormed` — terminals, edges, acyclicity and the arity of gates
- `Circuit.setInputBits`, `Circuit.inputBits?` — constants at the inputs, as a string of bits
- `Circuit.compose` — sequential composition, which turns the inputs of the second operand into
  plain wires
-/

namespace Wiring

/-- **A Boolean circuit**: a diagram whose labels are gates. -/
abbrev Circuit := Diagram Gate

namespace Circuit

/-- Accepts a diagram without directed cycles. -/
def ofDiagram [Words] (g : Diagram Gate) : Except Fault Circuit := do
  if ← g.isCyclic then .error .cyclic else .ok g

/-! ## Well-formed circuits -/

/-- The arity of a gate that is no terminal: one argument for copies and negations, one result for
    variadic gates and negations. Variables belong on terminals. -/
def gateOk [Words] (n : Node Gate) : Bool :=
  match n.label with
  | .copy => n.indegree == 1
  | .not => n.indegree == 1 && n.outdegree == 1
  | .and | .or | .xor => n.outdegree == 1
  | .const _ => true
  | .free _ => false

/-- **A well-formed diagram without cycles, all of whose inner gates have their arity.** -/
def isWellFormed [Words] (g : Circuit) : Bool :=
  Diagram.isWellFormed g
    && (match g.isAcyclic with
      | .ok acyclic => acyclic
      | .error _ => false)
    && g.nodes.values.all fun n => g.isTerminal n.id || gateOk n

/-! ## Input bits -/

/-- The character of a bit. -/
def bitChar (v : Bool) : Char := if v then '1' else '0'

/-- The bit of a character. -/
def readBit (c : Char) : Except Fault Bool :=
  if c = '0' then .ok false
  else if c = '1' then .ok true
  else .error (.badBit c)

/-- Reads one bit for each input. A character that is no bit is reported before a wrong length. -/
def readInputBits (g : Circuit) (bits : String) : Except Fault (List Bool) := do
  let values ← bits.toList.mapM readBit
  if values.length = g.inputs.length then .ok values
  else .error (.arity g.inputs.length values.length)

/-- Makes the inputs constants, one bit for each in their order. -/
def setInputBits (bits : String) : Edit Gate Unit := do
  let values ← Edit.ask (readInputBits · bits)
  let g ← get
  (g.inputs.zip values).forM fun e => Edit.setLabel e.1 (.const e.2)

/-- The bits at the inputs, if all of them are constants. -/
def inputBits? (g : Circuit) : Option String := do
  let values ← g.inputs.mapM fun i => (g.label? i).bind Gate.value?
  some (String.ofList (values.map bitChar))

/-! ## Composition -/

/-- Turns the inputs into plain wires, whatever values or names they had. -/
def clearInputs (g : Circuit) : Except Fault Circuit :=
  match g.inputs.find? (!g.contains ·) with
  | some i => .error (.unknownNode i)
  | none => .ok (g.inputs.foldl (·.relabel · .copy) g)

/-- **Sequential composition of circuits.** -/
def compose [Words] (f g : Circuit) : Except Fault Circuit := do
  let g ← clearInputs g
  Diagram.compose f g

end Circuit

end Wiring
