/-!
# Finite maps keyed by ids

A finite map from natural number ids to values, kept as the list of its entries in strictly
ascending key order. The order makes the representation canonical: two maps with the same
lookups are equal, so equality of diagrams is decidable and means what it should.

## Main definitions

- `IdMap` — the map itself, with its ordering invariant in the type
- `IdMap.get?`, `IdMap.contains` — lookups
- `IdMap.alter` — the one primitive update; `insert`, `erase` and `modify` are its instances
- `IdMap.union`, `IdMap.ofList` — bulk updates, in which the later entry wins
- `IdMap.filter`, `IdMap.map`, `IdMap.filterMap` — entrywise updates
-/

namespace Wiring

/-- **A finite map with natural number keys**, as its entries in strictly ascending key order. -/
structure IdMap (β : Type) where
  /-- The entries, each key once. -/
  entries : List (Nat × β)
  /-- Keys strictly ascend, so the list is determined by the lookups. -/
  ascending : entries.Pairwise (fun a b => a.1 < b.1)
deriving DecidableEq

namespace IdMap

variable {β γ : Type}

/-- The map without entries. -/
def empty : IdMap β := ⟨[], .nil⟩

instance : EmptyCollection (IdMap β) := ⟨empty⟩

instance : Inhabited (IdMap β) := ⟨empty⟩

/-- The value stored under `k`. -/
def get? (m : IdMap β) (k : Nat) : Option β := m.entries.lookup k

/-- Whether `k` has a value. -/
def contains (m : IdMap β) (k : Nat) : Bool := (m.get? k).isSome

/-- The keys, ascending. -/
def keys (m : IdMap β) : List Nat := m.entries.map (·.1)

/-- The values in ascending order of their keys. -/
def values (m : IdMap β) : List β := m.entries.map (·.2)

/-- The number of entries. -/
def size (m : IdMap β) : Nat := m.entries.length

/-- Whether there is no entry. -/
def isEmpty (m : IdMap β) : Bool := m.entries.isEmpty

/-- The smallest key. -/
def minKey? (m : IdMap β) : Option Nat := m.keys.head?

/-- The largest key. -/
def maxKey? (m : IdMap β) : Option Nat := m.keys.getLast?

/-- Replaces what an ascending entry list holds under `k` by what `f` makes of it, `none`
    standing for no entry. -/
def alterEntries (k : Nat) (f : Option β → Option β) : List (Nat × β) → List (Nat × β)
  | [] => (f none).toList.map (k, ·)
  | (j, w) :: rest =>
    if k < j then (f none).toList.map (k, ·) ++ (j, w) :: rest
    else if k = j then (f (some w)).toList.map (k, ·) ++ rest
    else (j, w) :: alterEntries k f rest

theorem mem_alterEntries {k : Nat} {f : Option β → Option β} {e : Nat × β}
    {l : List (Nat × β)} (h : e ∈ alterEntries k f l) : e.1 = k ∨ e ∈ l := by
  induction l with
  | nil =>
    obtain ⟨v, _, rfl⟩ := List.mem_map.1 h
    exact .inl rfl
  | cons head rest ih =>
    obtain ⟨j, w⟩ := head
    rw [alterEntries] at h
    split at h
    · rcases List.mem_append.1 h with h | h
      · obtain ⟨v, _, rfl⟩ := List.mem_map.1 h
        exact .inl rfl
      · exact .inr h
    · split at h
      · rcases List.mem_append.1 h with h | h
        · obtain ⟨v, _, rfl⟩ := List.mem_map.1 h
          exact .inl rfl
        · exact .inr (List.mem_cons_of_mem _ h)
      · rcases List.mem_cons.1 h with rfl | h
        · exact .inr List.mem_cons_self
        · exact (ih h).imp_right (List.mem_cons_of_mem _)

/-- At most one entry, followed by entries with larger keys, is ascending. -/
theorem pairwise_toList_append {k : Nat} (o : Option β) {l : List (Nat × β)}
    (hl : l.Pairwise (fun a b => a.1 < b.1)) (hk : ∀ e ∈ l, k < e.1) :
    (o.toList.map (k, ·) ++ l).Pairwise (fun a b => a.1 < b.1) := by
  cases o with
  | none => exact hl
  | some v => exact List.pairwise_cons.2 ⟨hk, hl⟩

theorem pairwise_alterEntries {k : Nat} {f : Option β → Option β} {l : List (Nat × β)}
    (hl : l.Pairwise (fun a b => a.1 < b.1)) :
    (alterEntries k f l).Pairwise (fun a b => a.1 < b.1) := by
  induction l with
  | nil => simpa [alterEntries] using pairwise_toList_append (f none) List.Pairwise.nil (by simp)
  | cons head rest ih =>
    obtain ⟨j, w⟩ := head
    obtain ⟨hj, hrest⟩ := List.pairwise_cons.1 hl
    rw [alterEntries]
    split
    · rename_i hkj
      refine pairwise_toList_append _ hl fun e he => ?_
      rcases List.mem_cons.1 he with rfl | he
      · exact hkj
      · exact Nat.lt_trans hkj (hj e he)
    · split
      · rename_i hkj
        subst hkj
        exact pairwise_toList_append _ hrest hj
      · refine List.pairwise_cons.2 ⟨fun e he => ?_, ih hrest⟩
        rcases mem_alterEntries he with rfl | he
        · omega
        · exact hj e he

/-- Replaces what is stored under `k` by what `f` makes of it, `none` standing for no entry. -/
def alter (m : IdMap β) (k : Nat) (f : Option β → Option β) : IdMap β :=
  ⟨alterEntries k f m.entries, pairwise_alterEntries m.ascending⟩

/-- Stores `v` under `k`, replacing what was there. -/
def insert (m : IdMap β) (k : Nat) (v : β) : IdMap β := m.alter k fun _ => some v

/-- Drops the entry of `k`, if any. -/
def erase (m : IdMap β) (k : Nat) : IdMap β := m.alter k fun _ => none

/-- Applies `f` to the value of `k`, if any. -/
def modify (m : IdMap β) (k : Nat) (f : β → β) : IdMap β := m.alter k (·.map f)

/-- The entries that satisfy `p`. -/
def filter (m : IdMap β) (p : Nat → β → Bool) : IdMap β :=
  ⟨m.entries.filter fun e => p e.1 e.2, m.ascending.filter _⟩

/-- Applies `f` to every entry and stores the results under the same keys. -/
def map (m : IdMap β) (f : Nat → β → γ) : IdMap γ :=
  ⟨m.entries.map fun e => (e.1, f e.1 e.2), m.ascending.map _ fun _ _ h => h⟩

/-- Applies `f` to every entry and keeps the results there are. -/
def filterMap (m : IdMap β) (f : Nat → β → Option γ) : IdMap γ :=
  ⟨m.entries.filterMap fun e => (f e.1 e.2).map (e.1, ·), by
    refine m.ascending.filterMap _ fun a a' h b hb b' hb' => ?_
    obtain ⟨v, _, rfl⟩ := Option.map_eq_some_iff.1 hb
    obtain ⟨v', _, rfl⟩ := Option.map_eq_some_iff.1 hb'
    exact h⟩

/-- Raises every key by `n`. -/
def shift (m : IdMap β) (n : Nat) : IdMap β :=
  ⟨m.entries.map fun e => (e.1 + n, e.2), m.ascending.map _ fun _ _ h => Nat.add_lt_add_right h n⟩

/-- Inserts the listed entries from left to right, so that a later entry wins. -/
def insertAll (m : IdMap β) (l : List (Nat × β)) : IdMap β :=
  l.foldl (fun m e => m.insert e.1 e.2) m

/-- The map of the listed entries; of two entries with one key the later wins. -/
def ofList (l : List (Nat × β)) : IdMap β := empty.insertAll l

/-- The entries of both maps; under a common key that of `n` wins. -/
def union (m n : IdMap β) : IdMap β := m.insertAll n.entries

end IdMap

end Wiring
