import Wiring.IdMap.Basic
import Wiring.Words

/-!
# Tallies of neighbours

A tally counts, for each neighbour of a node, the parallel edges that join them. An entry of zero
never arises from the operations here unless a count wraps around in its word, though a tally read
from outside may hold one.

## Main definitions

- `Tally` — the number of edges to each neighbour
- `Tally.count`, `Tally.total` — edges to one neighbour, and to all
- `Tally.add`, `Tally.decrement` — more edges, one edge less
- `Tally.renumber` — the ids of all neighbours raised
- `Tally.single?` — the neighbour of a tally that consists of a single edge
-/

namespace Wiring

/-- **The number of parallel edges to each neighbour.** -/
abbrev Tally := IdMap Nat

namespace Tally

/-- The number of edges to `id`; none if it has no entry. -/
def count (t : Tally) (id : Nat) : Nat := (t.get? id).getD 0

/-- The number of edges altogether, added up in a word. -/
def total [Words] (t : Tally) : Nat := t.values.foldr (fun m n => Words.wrap (m + n)) 0

/-- Counts `m` more edges to `id`. Adding none makes no entry. The count is kept in a word. -/
def add [Words] (t : Tally) (id m : Nat) : Tally :=
  if m = 0 then t else t.alter id fun old => some (Words.wrap (old.getD 0 + m))

/-- Counts one edge less to `id`; the last one takes the entry with it. -/
def decrement (t : Tally) (id : Nat) : Tally :=
  t.alter id fun old => old.bind fun m => if m ≤ 1 then none else some (m - 1)

/-- The tally of listed neighbours: repeats add up, zeros leave no trace. -/
def ofList [Words] (l : List (Nat × Nat)) : Tally :=
  l.foldl (fun t e => t.add e.1 e.2) IdMap.empty

/-- Raises the id of every neighbour by `d`. Ids are kept in words; of two that fall together the
    later entry is kept. -/
def renumber [Words] (t : Tally) (d : Nat) : Tally :=
  IdMap.ofList (t.entries.map fun e => (Words.wrap (e.1 + d), e.2))

/-- The only neighbour, if there is one entry and it counts exactly one edge. -/
def single? (t : Tally) : Option Nat :=
  match t.entries with
  | [(id, 1)] => some id
  | _ => none

end Tally

end Wiring
