import Wiring.Diagram.Basic

/-!
# Well-formed diagrams

A diagram is well formed when every reference in it is sound: terminals exist and have the arity of
one, nodes are stored under their own ids, and the two ends of every edge agree on how many parallel
edges there are.

## Main definitions

- `OutputRule` — whether an output may have lost its parent
- `Diagram.isWellFormedWith`, `Diagram.isWellFormed` — the check
-/

namespace Wiring

/-- What is asked of the parents of an output. -/
inductive OutputRule where
  /-- A single edge enters every output. -/
  | strict
  /-- An output may also have no parent at all, as it happens on the way to a value. -/
  | relaxed
deriving DecidableEq

namespace Diagram

variable {α : Type}

/-- The input exists, has no parents and a single edge out. -/
def inputOk [Words] (g : Diagram α) (i : Nat) : Bool :=
  match g.node? i with
  | none => false
  | some n => n.indegree == 0 && n.children.single?.isSome

/-- The output exists, has no children and the parents that the rule asks for. -/
def outputOk [Words] (g : Diagram α) (rule : OutputRule) (o : Nat) : Bool :=
  match g.node? o with
  | none => false
  | some n =>
    n.outdegree == 0 && (n.parents.single?.isSome || (rule == .relaxed && n.indegree == 0))

/-- The child `c` counts `m` edges from `id`. -/
def childAgrees (g : Diagram α) (id c m : Nat) : Bool :=
  match g.node? c with
  | none => false
  | some child => child.parents.count id == m

/-- The parent `p` counts `m` edges to `id`. -/
def parentAgrees (g : Diagram α) (id p m : Nat) : Bool :=
  match g.node? p with
  | none => false
  | some parent => parent.children.count id == m

/-- The node stored under `id` goes by that id, and all its neighbours agree with its counts. -/
def nodeOk (g : Diagram α) (id : Nat) (n : Node α) : Bool :=
  n.id == id
    && n.children.entries.all (fun e => g.childAgrees id e.1 e.2)
    && n.parents.entries.all (fun e => g.parentAgrees id e.1 e.2)

/-- **All terminals have their arity, and all nodes are stored and counted consistently.** -/
def isWellFormedWith [Words] (rule : OutputRule) (g : Diagram α) : Bool :=
  g.inputs.all g.inputOk
    && g.outputs.all (g.outputOk rule)
    && g.nodes.entries.all (fun e => g.nodeOk e.1 e.2)

/-- Well-formedness with a parent for every output. -/
def isWellFormed [Words] (g : Diagram α) : Bool := g.isWellFormedWith .strict

end Diagram

end Wiring
