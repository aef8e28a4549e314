import Wiring.Circuit.Basic

/-!
# Folding constants

Rules that fold a constant into the gate it feeds, so that the pair is replaced by a smaller circuit
of the same meaning. A rule looks at a *source*, a constant without parents. It answers whether it
applied, and leaves the circuit alone if not.

## Main definitions

- `Circuit.isSource`, `Circuit.sources` — constants without parents
- `Circuit.feeds?` — the value of a source and the one gate that it feeds
- `Circuit.foldCopy`, `Circuit.foldNot`, `Circuit.foldAndOr`, `Circuit.foldXor` — the rules for the
  gate below a source
- `Circuit.settleNeutral` — a variadic gate without arguments becomes a constant
- `Circuit.splitFanOut` — a constant with many uses becomes many constants
- `Circuit.foldSource` — whichever rule fits a source
- `Rule`, `Rule.fire` — the rules by name
-/

namespace Wiring

namespace Circuit

/-- Whether the node is a constant without parents. -/
def isSourceNode [Words] (n : Node Gate) : Bool := n.indegree == 0 && n.label.value?.isSome

/-- Whether `id` is a constant without parents. -/
def isSource [Words] (g : Circuit) (id : Nat) : Bool := (g.node? id).any isSourceNode

/-- All sources, in ascending id order. -/
def sources [Words] (g : Circuit) : List Nat := (g.nodes.filter fun _ n => isSourceNode n).keys

/-- The value of the source `s` and the node that it feeds, if it has a single edge out and that
    does not lead to an output. -/
def feeds? [Words] (g : Circuit) (s : Nat) : Option (Bool × Nat) := do
  let n ← g.node? s
  let v ← n.label.value?
  guard (n.indegree = 0)
  let c ← n.children.single?
  guard (!g.isOutput c)
  some (v, c)

/-- What `s` feeds, if that has a label of the kind asked for. -/
def feedsKind? [Words] (g : Circuit) (s : Nat) (kind : Gate → Bool) : Option (Bool × Nat) := do
  let (v, c) ← feeds? g s
  let label ← g.label? c
  guard (kind label)
  some (v, c)

/-- Adds a constant for every edge to the listed children. -/
def feedAll [Words] (v : Bool) (children : Tally) : Edit Gate Unit :=
  children.entries.forM fun e =>
    Edit.repeated (discard (Edit.addNode (.const v) [] [e.1])) e.2

/-- Moves all edges from the listed parents to `c` onto fresh copies without children. -/
def divertAll [Words] (c : Nat) (parents : Tally) : Edit Gate Unit :=
  parents.entries.forM fun e => do
    Edit.change (·.sever e.1 c)
    Edit.repeated (discard (Edit.addNode .copy [e.1] [])) e.2

/-- Puts a negation on every edge from `c` to the listed children. -/
def negateAll [Words] (c : Nat) (children : Tally) : Edit Gate Unit :=
  children.entries.forM fun e => do
    Edit.change (·.sever c e.1)
    Edit.repeated (discard (Edit.addNode .not [c] [e.1])) e.2

/-- **Copy**: a constant that feeds a copy takes its place, once for every edge that leaves it. -/
def foldCopy [Words] (s : Nat) : Edit Gate Bool := do
  match feedsKind? (← get) s (· == .copy) with
  | none => pure false
  | some (v, c) => do
    let copy ← Edit.ask (·.find c)
    if copy.indegree ≠ 1 then pure false
    else if copy.outdegree ≤ 1 then do
      Edit.setLabel c (.const v)
      Edit.change (·.removeNodes [s])
      pure true
    else do
      Edit.change (·.removeNodes [s, c])
      feedAll v copy.children
      pure true

/-- **Not**: a constant that feeds a negation turns it into the opposite constant. -/
def foldNot [Words] (s : Nat) : Edit Gate Bool := do
  match feedsKind? (← get) s (· == .not) with
  | none => pure false
  | some (v, c) => do
    let negation ← Edit.ask (·.find c)
    if negation.indegree ≠ 1 then pure false
    else do
      Edit.setLabel c (.const !v)
      Edit.change (·.removeNodes [s])
      pure true

/-- Turns the gate `c` into the constant `v`; what fed the gate feeds dead ends from now on. -/
def absorb [Words] (c : Nat) (v : Bool) : Edit Gate Unit := do
  let gate ← Edit.ask (·.find c)
  divertAll c gate.parents
  Edit.setLabel c (.const v)

/-- **And, or**: a neutral argument is dropped, an absorbing one settles the gate. -/
def foldAndOr [Words] (s : Nat) : Edit Gate Bool := do
  let g ← get
  match feedsKind? g s fun label => label == .and || label == .or with
  | none => pure false
  | some (v, c) => do
    Edit.change (·.removeNodes [s])
    if (g.label? c).bind Gate.absorbing? = some v then absorb c v else pure ()
    pure true

/-- Negates the results of the gate `c`. -/
def negateResults [Words] (c : Nat) : Edit Gate Unit := do
  let gate ← Edit.ask (·.find c)
  negateAll c gate.children

/-- **Xor**: a false argument is dropped; so is a true one, and the results of the gate are
    negated. -/
def foldXor [Words] (s : Nat) : Edit Gate Bool := do
  match feedsKind? (← get) s (· == .xor) with
  | none => pure false
  | some (v, c) => do
    Edit.change (·.removeNodes [s])
    if v then negateResults c else pure ()
    pure true

/-- The value that the node `id` takes if it is a variadic gate without arguments. -/
def emptyValue? [Words] (g : Circuit) (id : Nat) : Option Bool := do
  let n ← g.node? id
  let v ← n.label.neutral?
  guard (n.indegree = 0)
  some v

/-- **Neutral value**: a variadic gate without arguments becomes its neutral constant. -/
def settleNeutral [Words] (id : Nat) : Edit Gate Bool := do
  match emptyValue? (← get) id with
  | none => pure false
  | some v => do
    Edit.setLabel id (.const v)
    pure true

/-- The value and the children of a source with several edges out. -/
def fanOut? [Words] (g : Circuit) (s : Nat) : Option (Bool × Tally) := do
  let n ← g.node? s
  let v ← n.label.value?
  guard (n.indegree = 0 ∧ 1 < n.outdegree)
  some (v, n.children)

/-- **Fan-out**: a constant with several edges out becomes one constant for each of them. -/
def splitFanOut [Words] (s : Nat) : Edit Gate Bool := do
  match fanOut? (← get) s with
  | none => pure false
  | some (v, children) => do
    Edit.change (·.removeNodes [s])
    feedAll v children
    pure true

/-- **Applies whichever rule fits the source `s`**: it is split if it has several edges out, and
    else folded into the gate that it feeds. -/
def foldSource [Words] (s : Nat) : Edit Gate Bool := do
  let g ← get
  if !isSource g s then pure false
  else if (fanOut? g s).isSome then splitFanOut s
  else
    match feeds? g s with
    | none => pure false
    | some (_, c) =>
      match g.label? c with
      | some .copy => foldCopy s
      | some .not => foldNot s
      | some .and | some .or => foldAndOr s
      | some .xor => foldXor s
      | some (.const _) | some (.free _) | none => pure false

end Circuit

/-- **The folding rules.** -/
inductive Rule where
  /-- A constant into a copy. -/
  | copy
  /-- A constant into a negation. -/
  | not
  /-- A constant into a conjunction or a disjunction. -/
  | andOr
  /-- A constant into an exclusive disjunction. -/
  | xor
  /-- A variadic gate without arguments. -/
  | neutral
  /-- A constant with several uses. -/
  | fanOut
  /-- Whichever rule fits a source. -/
  | source
deriving DecidableEq

/-- Applies the rule at a node and answers whether it fitted. -/
def Rule.fire [Words] : Rule → Nat → Edit Gate Bool
  | copy => Circuit.foldCopy
  | not => Circuit.foldNot
  | andOr => Circuit.foldAndOr
  | xor => Circuit.foldXor
  | neutral => Circuit.settleNeutral
  | fanOut => Circuit.splitFanOut
  | source => Circuit.foldSource

end Wiring
