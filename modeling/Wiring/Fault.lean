import Wiring.Text.Quoted

/-!
# Faults

Every reason for which an operation on diagrams and circuits can be refused, and the text that
reports it.

## Main definitions

- `TerminalRule` — the rules that tie input and output terminals to the edges at their nodes
- `Fault` — the reasons for a refusal
- `Fault.message` — the report of a fault, except for `Fault.dangling`, which is a defect of the
  diagram rather than of a request and has no agreed text
-/

namespace Wiring

/-- **A rule on terminals** that an operation would have broken. -/
inductive TerminalRule where
  /-- An output may not be a parent. -/
  | edgeFromOutput
  /-- An input may not be a child. -/
  | edgeIntoInput
  /-- The node is an input already. -/
  | isInput
  /-- The node is an output already. -/
  | isOutput
  /-- An input may not have parents. -/
  | hasParents
  /-- An output may not have children. -/
  | hasChildren
  /-- An input has one child, joined by a single edge. -/
  | notOneChild
  /-- An output has one parent, joined by a single edge. -/
  | notOneParent
  /-- No node is an input and an output at once. -/
  | bothEnds
  /-- An output that is glued onto another diagram needs a parent to glue to. -/
  | unfedOutput
deriving DecidableEq

/-- What is wrong with the node that breaks the rule. -/
def TerminalRule.complaint : TerminalRule → String
  | edgeFromOutput => "is an output and cannot be a parent"
  | edgeIntoInput => "is an input and cannot be a child"
  | isInput => "is already an input"
  | isOutput => "is already an output"
  | hasParents => "has parents"
  | hasChildren => "has children"
  | notOneChild => "does not have exactly one child of multiplicity 1"
  | notOneParent => "does not have exactly one parent of multiplicity 1"
  | bothEnds => "is registered as both an input and an output"
  | unfedOutput => "is an output without a parent"

/-- **A reason for which an operation is refused.** -/
inductive Fault where
  /-- No node has the id. -/
  | unknownNode (id : Nat)
  /-- The node breaks a rule on terminals. -/
  | terminal (id : Nat) (rule : TerminalRule)
  /-- A list has the wrong length. -/
  | arity (expected found : Nat)
  /-- A directed cycle stands where none is allowed. -/
  | cyclic
  /-- The value of the output could not be determined. -/
  | unresolved (output : Nat)
  /-- The character is not a bit. -/
  | badBit (c : Char)
  /-- A parenthesis at the byte offset has no partner. -/
  | unbalanced (offset : Nat)
  /-- A query followed a reference to the id, but no node is stored under it. -/
  | dangling (id : Nat)
deriving DecidableEq

namespace Fault

/-- How messages write the id of a node. -/
def nodeName (id : Nat) : String := "N(" ++ toString id ++ ")"

/-- The text that reports a fault. -/
def message : Fault → String
  | unknownNode id => "no node with id " ++ nodeName id
  | terminal id rule => "port violation: node " ++ nodeName id ++ " " ++ rule.complaint
  | arity expected found =>
    "arity mismatch: expected " ++ toString expected ++ ", found " ++ toString found
  | cyclic => "graph is cyclic"
  | unresolved output => "output " ++ nodeName output ++ " was not reduced to a constant"
  | badBit c => "invalid bit " ++ Text.quoted c ++ ", expected \x270\x27 or \x271\x27"
  | unbalanced offset =>
    "malformed formula: unbalanced parenthesis at byte " ++ toString offset
  | dangling id => "dangling reference to " ++ nodeName id

end Fault

end Wiring
