import Wiring.Circuit.Folding
import Wiring.Diagram.DeadEnds

/-!
# Evaluation by folding

A circuit is evaluated by folding its constants, pass after pass, until a pass changes nothing. An
output whose parent is a constant by then has that value.

## Main definitions

- `Circuit.pass` — one round of folding and pruning
- `Circuit.Simpler` — what passes do to a circuit for as long as they change it
- `Circuit.normalize` — passes until nothing changes or a limit is reached
- `Circuit.evaluate`, `Circuit.evaluateWithin` — the bits at the outputs
-/

namespace Wiring

/-- **What a gate may be folded into**, one for every constant. A constant or a copy may be taken
    apart into as many constants as it has edges out, and a negation may become a constant. Variadic
    gates are counted on their own. -/
def Gate.bulk (label : Gate) (outs : Nat) : Nat :=
  match label with
  | .const _ | .copy => 2 * (outs - 1) + 1
  | .not => 2 * (outs - 1)
  | .and | .or | .xor | .free _ => 0

namespace Circuit

/-- The variadic gates without arguments, by the ids that they go by. -/
def emptyGates [Words] (g : Circuit) : List Nat :=
  (g.nodes.values.filter fun n => n.indegree == 0 && n.label.isVariadic).map (·.id)

/-- Applies a rule at each listed node in turn and answers whether it fitted anywhere. -/
def fireAll [Words] (rule : Rule) : List Nat → Edit Gate Bool
  | [] => pure false
  | id :: ids => do
    let fired ← rule.fire id
    let more ← fireAll rule ids
    pure (fired || more)

/-- **One pass**: every source and every empty gate that is there at the start gets its chance, then
    dead ends are removed. Answers whether anything has changed. -/
def pass [Words] : Edit Gate Bool := do
  let g ← get
  let folded ← fireAll .source (sources g)
  let settled ← fireAll .neutral (emptyGates g)
  let removed ← Edit.prune
  pure (folded || settled || removed != 0)

/-- Runs passes until one changes nothing, at most `n`, and counts those that changed something. -/
def normalizeUpTo [Words] : Nat → Edit Gate Nat
  | 0 => pure 0
  | n + 1 => do
    if ← pass then do
      let passes ← normalizeUpTo n
      pure (passes + 1)
    else pure 0

/-- The number of variadic gates. -/
def gateCount (g : Circuit) : Nat := g.sumOf fun n => if n.label.isVariadic then 1 else 0

/-- The bulk of all nodes, degrees being counted however many edges a word can hold. -/
def bulk (g : Circuit) : Nat :=
  g.sumOf fun n => n.label.bulk (letI _ := Unlimited.words; n.outdegree)

/-- **The circuit `h` is simpler than `g`**: it has fewer variadic gates, or as many and less bulk,
    or as much and fewer nodes. -/
def Simpler (h g : Circuit) : Prop :=
  h.gateCount < g.gateCount ∨ h.gateCount = g.gateCount ∧
    (h.bulk < g.bulk ∨ h.bulk = g.bulk ∧ h.size < g.size)

instance (h g : Circuit) : Decidable (Simpler h g) := inferInstanceAs (Decidable (_ ∨ _))

theorem Simpler.lex {h g : Circuit} (hsimpler : Simpler h g) :
    Prod.Lex (· < ·) (Prod.Lex (· < ·) (· < ·))
      (h.gateCount, h.bulk, h.size) (g.gateCount, g.bulk, g.size) := by
  obtain hlt | ⟨heq, hlt | ⟨hbulk, hlt⟩⟩ := hsimpler
  · exact .left _ _ hlt
  · exact heq ▸ .right _ (.left _ _ hlt)
  · exact heq ▸ .right _ (hbulk ▸ .right _ hlt)

/-- **Runs passes until one changes nothing**, and counts those that changed something. A pass that
    changes something makes the circuit simpler; one that does not, as it may happen where nodes are
    stored under other ids than their own, is the last. -/
def normalizeFully [Words] (g : Circuit) : Except Fault Nat × Circuit :=
  match pass.runOn g with
  | (.ok true, h) =>
    if Simpler h g then
      let (answer, left) := normalizeFully h
      (answer.map (· + 1), left)
    else (.ok 1, h)
  | (.ok false, h) => (.ok 0, h)
  | (.error fault, h) => (.error fault, h)
termination_by (g.gateCount, g.bulk, g.size)
decreasing_by exact Simpler.lex ‹_›

/-- Runs passes until one changes nothing or as many as the limit says have been run, and counts
    those that changed something. -/
def normalize [Words] : Option Nat → Edit Gate Nat
  | none => Edit.ofRun normalizeFully
  | some limit => normalizeUpTo limit

/-- The bit at the output `o`: the value of the constant that feeds it. -/
def outputBit (g : Circuit) (o : Nat) : Except Fault Char := do
  let n ← g.find o
  match n.parents.single?.bind fun p => (g.label? p).bind Gate.value? with
  | some v => .ok (bitChar v)
  | none => .error (.unresolved o)

/-- The bits at all outputs, or the first output that has none. -/
def outputBits (g : Circuit) : Except Fault String := do
  let bits ← g.outputs.mapM (outputBit g)
  .ok (String.ofList bits)

/-- Evaluates a circuit within a limited number of passes. -/
def evaluateWithin [Words] (limit : Option Nat) (g : Circuit) : Except Fault String :=
  match (normalize limit).runOn g with
  | (.ok _, reduced) => outputBits reduced
  | (.error fault, _) => .error fault

/-- **Evaluates a circuit**: one bit for each output. -/
def evaluate [Words] (g : Circuit) : Except Fault String := evaluateWithin none g

/-- Evaluates a circuit on the given input bits. -/
def evaluateOn [Words] (bits : String) (g : Circuit) : Except Fault String :=
  match (setInputBits bits).runOn g with
  | (.ok _, valued) => evaluate valued
  | (.error fault, _) => .error fault

end Circuit

end Wiring
