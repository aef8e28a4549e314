import Wiring.Circuit.Basic
import Wiring.Saved.Tree

/-!
# Saving and loading

The trees as which diagrams are saved, and the diagrams that trees stand for. Loading asks for the
right shape only; a circuit must also be free of cycles.

## Main definitions

- `Storable` — labels that can be saved
- `Diagram.save`, `Diagram.load?` — diagrams as trees
- `Circuit.load` — circuits from trees
-/

namespace Wiring

open Saved

/-- **Labels that can be saved** as a tree and loaded again. -/
class Storable (α : Type) where
  /-- The tree of a label. -/
  save : α → Tree
  /-- The label of a tree. -/
  load? : Tree → Option α

/-- A text is saved as it is. -/
instance : Storable String where
  save := .text
  load?
    | .text s => some s
    | _ => none

namespace Gate

/-- The gates that carry nothing, by their names. -/
def plain? (name : String) : Option Gate :=
  if name = "Copy" then some .copy
  else if name = "Not" then some .not
  else if name = "And" then some .and
  else if name = "Or" then some .or
  else if name = "Xor" then some .xor
  else none

/-- A gate that carries nothing is saved as its name, another one as a record with a single field of
    that name. -/
def save : Gate → Tree
  | .copy => .text "Copy"
  | .not => .text "Not"
  | .and => .text "And"
  | .or => .text "Or"
  | .xor => .text "Xor"
  | .const v => .record [("Const", .bool v)]
  | .free name => .record [("Free", .text name)]

/-- Besides the saved form, a record that names a gate which carries nothing is read, if the field
    holds nothing. -/
def load? : Tree → Option Gate
  | .text name => plain? name
  | .record [("Const", .bool v)] => some (.const v)
  | .record [("Free", .text name)] => some (.free name)
  | .record [(name, .null)] => plain? name
  | _ => none

end Gate

instance : Storable Gate where
  save := Gate.save
  load? := Gate.load?

namespace Tally

/-- A tally is saved as a record of counts. -/
def save (t : Tally) : Tree := .ofIdMap .natural t

/-- Counts of zero are kept. -/
def load? (t : Tree) : Option Tally := t.idMap? Tree.natural?

end Tally

namespace Node

variable {α : Type} [Storable α]

/-- A node is saved as a record. -/
def save (n : Node α) : Tree :=
  .record
    [("id", .natural n.id), ("label", Storable.save n.label), ("parents", n.parents.save),
      ("children", n.children.save)]

/-- The node of a record with all four fields. -/
def load? (t : Tree) : Option (Node α) := do
  match ← t.fields? ["id", "label", "parents", "children"] with
  | [id, label, parents, children] => do
    some
      { id := ← id.natural?
        label := ← Storable.load? label
        parents := ← Tally.load? parents
        children := ← Tally.load? children }
  | _ => none

end Node

namespace Diagram

variable {α : Type} [Storable α]

/-- **A diagram is saved as a record**, with its nodes under their ids. -/
def save (g : Diagram α) : Tree :=
  .record
    [("nodes", .ofIdMap Node.save g.nodes), ("inputs", .ofNaturals g.inputs),
      ("outputs", .ofNaturals g.outputs), ("next_id", .natural g.nextId)]

/-- **The diagram of a record** with all four fields. Nothing but the shape is checked. -/
def load? (t : Tree) : Option (Diagram α) := do
  match ← t.fields? ["nodes", "inputs", "outputs", "next_id"] with
  | [nodes, inputs, outputs, nextId] => do
    some
      { nodes := ← nodes.idMap? Node.load?
        inputs := ← inputs.naturals?
        outputs := ← outputs.naturals?
        nextId := ← nextId.natural? }
  | _ => none

end Diagram

/-- Why a circuit could not be loaded. -/
inductive LoadFault where
  /-- The tree does not have the shape of a diagram. -/
  | malformed
  /-- The diagram is no circuit. -/
  | rejected (fault : Fault)
deriving DecidableEq

/-- **The circuit of a record**, which must be free of cycles. -/
def Circuit.load [Words] (t : Tree) : Except LoadFault Circuit :=
  match Diagram.load? t with
  | none => .error .malformed
  | some g =>
    match Circuit.ofDiagram g with
    | .ok c => .ok c
    | .error fault => .error (.rejected fault)

end Wiring
