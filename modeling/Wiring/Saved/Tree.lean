import Wiring.IdMap.Basic
import Wiring.Decimal

/-!
# Saved trees

The shape in which diagrams are saved: trees of numbers, texts, lists and records, and the readings
of a tree as a number, a list of numbers, a record with given fields or a map keyed by ids.

## Main definitions

- `Tree` — saved trees
- `Tree.natural?`, `Tree.naturals?`, `Tree.fields?`, `Tree.idMap?` — readings of a tree
- `Tree.ofNaturals`, `Tree.ofIdMap` — the trees that read so
-/

namespace Wiring.Saved

/-- **A saved tree.** -/
inductive Tree where
  /-- Nothing. -/
  | null
  /-- A truth value. -/
  | bool (value : Bool)
  /-- A natural number. -/
  | natural (value : Nat)
  /-- A number that is not written as a natural one. -/
  | otherNumber
  /-- A text. -/
  | text (value : String)
  /-- A list of trees. -/
  | list (items : List Tree)
  /-- Named trees, each name once. -/
  | record (fields : List (String × Tree))

namespace Tree

variable {β : Type}

/-- Ids and counts are below this number. -/
def limit : Nat := Nat.pow 2 64

/-- The number that the tree is. -/
def natural? : Tree → Option Nat
  | .natural n => if n < limit then some n else none
  | _ => none

/-- The numbers that the tree lists. -/
def naturals? : Tree → Option (List Nat)
  | .list items => items.mapM natural?
  | _ => none

/-- The fields of a record in the order of the given names; other fields are ignored. A list of just
    the fields in this order does as well. -/
def fields? (names : List String) : Tree → Option (List Tree)
  | .record fields => names.mapM fun name => fields.lookup name
  | .list items => if items.length = names.length then some items else none
  | _ => none

/-- The id that a field of a record is named by. -/
def key? (name : String) : Option Nat := (Decimal.read? name).filter (· < limit)

/-- The map that a record with ids for names stands for. -/
def idMap? (value? : Tree → Option β) : Tree → Option (IdMap β)
  | .record fields => do
    let entries ← fields.mapM fun e => do
      let k ← key? e.1
      let v ← value? e.2
      some (k, v)
    some (IdMap.ofList entries)
  | _ => none

/-- The list of numbers as a tree. -/
def ofNaturals (ns : List Nat) : Tree := .list (ns.map .natural)

/-- The map as a record with ids for names. -/
def ofIdMap (tree : β → Tree) (m : IdMap β) : Tree :=
  .record (m.entries.map fun e => (Decimal.write e.1, tree e.2))

end Tree

end Wiring.Saved
