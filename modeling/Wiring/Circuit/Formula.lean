import Wiring.Circuit.Basic
import Wiring.Diagram.Merge
import Wiring.Diagram.Terminals
import Wiring.Text.Blank

/-!
# Circuits from formulas

A formula is written with parentheses around every operand, as in `((x0)&(x1))|(~(x2))`: operators
stand between or before their operands, and a token that starts with `x` is a variable. It is read
from the output up: an opening parenthesis starts an operand above the current node, the closing
one goes back to the node that the operand feeds.

## Main definitions

- `Formula.scan` — reads a formula onto a node of the circuit
- `Circuit.ofFormulas` — the circuit with one output for each formula
-/

namespace Wiring

namespace Formula

/-- The node that stands for each variable met so far. -/
abbrev Names := List (String × Nat)

/-- Whether the token is a variable. -/
def isVariable (token : String) : Bool := token.toList.head? == some 'x'

/-- Labels a node with a pending token, if there is one. -/
def labelPending (id : Nat) (token : String) : Edit Gate Unit :=
  if token = "" then pure () else Edit.setLabel id (.ofToken token)

/-- Ends the operand at `current` with its pending token. A variable that was met before is merged
    into the node that stands for it. -/
def close [Words] (names : Names) (current : Nat) (token : String) : Edit Gate Names := do
  if isVariable token then
    match names.lookup token with
    | some first => do
      Edit.merge first current
      pure names
    | none => pure ((token, current) :: names)
  else do
    labelPending current token
    pure names

/-- **Reads characters onto the node `current`.** `token` is what has been read of the pending
    token, `depth` the number of open parentheses, `offset` the number of bytes read. -/
def scan [Words] (names : Names) (current : Nat) (token : String) (depth offset : Nat) :
    List Char → Edit Gate Names
  | [] => if depth = 0 then close names current token else throw (.unbalanced offset)
  | c :: rest =>
    if c = '(' then do
      labelPending current token
      let operand ← Edit.addNode .copy [] [current]
      scan names operand "" (depth + 1) (offset + c.utf8Size) rest
    else if c = ')' then
      if depth = 0 then throw (.unbalanced offset)
      else do
        let n ← Edit.ask (·.find current)
        match n.children.single? with
        | none => throw (.unbalanced offset)
        | some below => do
          let names ← close names current token
          scan names below "" (depth - 1) (offset + c.utf8Size) rest
    else if Text.isBlank c then scan names current token depth (offset + c.utf8Size) rest
    else scan names current (token.push c) depth (offset + c.utf8Size) rest

/-- Reads a formula onto a new node with an output of its own. -/
def read [Words] (names : Names) (formula : String) : Edit Gate Names := do
  let root ← Edit.addNode .copy [] []
  let _ ← Edit.addOutputAt root
  scan names root "" 0 0 formula.toList

/-- Reads formulas one after the other; they share their variables. -/
def readAll [Words] (names : Names) : List String → Edit Gate Names
  | [] => pure names
  | formula :: formulas => do
    let names ← read names formula
    readAll names formulas

/-- Makes the node of a variable a copy that is fed by an input of that name. -/
def openInput [Words] (name : String) (id : Nat) : Edit Gate Unit := do
  Edit.setLabel id .copy
  let terminal ← Edit.addInputAt id
  Edit.setLabel terminal (.free name)

/-- The variables in the order of their names. -/
def sorted (names : Names) : Names := names.mergeSort fun a b => !decide (b.1 < a.1)

/-- Reads the formulas and opens an input for each variable, in the order of their names. -/
def build [Words] (formulas : List String) : Edit Gate Unit := do
  let names ← readAll [] formulas
  (sorted names).forM fun e => openInput e.1 e.2

end Formula

/-- **The circuit that computes the formulas**, one output for each in their order and one input for
    each variable in the order of the names. -/
def Circuit.ofFormulas [Words] (formulas : List String) : Except Fault Circuit :=
  match (Formula.build formulas).runOn Diagram.empty with
  | (.ok _, g) => .ok g
  | (.error fault, _) => .error fault

end Wiring
