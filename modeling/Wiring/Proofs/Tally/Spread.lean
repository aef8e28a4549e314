import Mathlib.Data.List.Perm.Basic
import Mathlib.Data.List.Flatten
import Wiring.Tally.Lemmas

/-!
# Tallies as lists of neighbours

A tally spread out is the list of its neighbours, each as often as it is counted. Degrees are
lengths of such lists, multiplicities are counts in them, and a gate reads its arguments off one.

## Main definitions

- `Tally.spread` — every neighbour once for each edge
- `Tally.Positive` — no entry counts zero edges

## Main statements

- `Tally.count_spread`, `Tally.length_spread` — counts and total of the list
- `Tally.spread_erase`, `Tally.spread_add` — the list after a change
- `Tally.Positive.ext` — tallies without zeros are determined by their counts
- `Tally.Positive.erase_eq_self` — erasing makes a difference for neighbours only
-/

namespace Wiring.Tally

open scoped Unlimited

variable {t u : Tally} {j k m : Nat}

/-- The neighbours in ascending order, each once for every edge. -/
def spread (t : Tally) : List Nat := t.entries.flatMap fun e => List.replicate e.2 e.1

theorem length_spread (t : Tally) : t.spread.length = t.total := by
  have (l : List (Nat × Nat)) : (l.flatMap fun e => List.replicate e.2 e.1).length =
      (l.map (·.2)).foldr (· + ·) 0 := by
    induction l with
    | nil => rfl
    | cons e l ih => simp [ih]
  exact this t.entries

theorem count_spread (t : Tally) (k : Nat) : t.spread.count k = t.count k := by
  have (l : List (Nat × Nat)) (hl : l.Pairwise (fun a b => a.1 < b.1)) :
      (l.flatMap fun e => List.replicate e.2 e.1).count k = (l.lookup k).getD 0 := by
    induction l with
    | nil => rfl
    | cons e l ih =>
      obtain ⟨i, m⟩ := e
      obtain ⟨hi, hl'⟩ := List.pairwise_cons.1 hl
      rw [List.flatMap_cons, List.count_append, ih hl', List.count_replicate, List.lookup_cons]
      by_cases hk : k = i
      · subst hk
        simp [IdMap.lookup_eq_none_of_lt hi]
      · have hki : (k == i) = false := by simpa using hk
        have hik : (i == k) = false := by simpa using Ne.symm hk
        simp [hki, hik]
  exact this t.entries t.ascending

theorem mem_spread : k ∈ t.spread ↔ 0 < t.count k := by
  rw [← List.count_pos_iff, count_spread]

/-- A neighbour that is counted has an entry. -/
theorem get?_of_count_pos (h : 0 < t.count k) : ∃ m, t.get? k = some m ∧ t.count k = m := by
  unfold count at h ⊢
  cases hk : t.get? k with
  | none => simp [hk] at h
  | some m => exact ⟨m, rfl, rfl⟩

/-- Erasing a neighbour takes all its occurrences out of the list. -/
theorem spread_erase (t : Tally) (k : Nat) :
    spread (t.erase k) = t.spread.filter (· != k) := by
  have (l : List (Nat × Nat)) (hl : l.Pairwise (fun a b => a.1 < b.1)) :
      (IdMap.alterEntries k (fun _ => none) l).flatMap (fun e => List.replicate e.2 e.1) =
        (l.flatMap fun e => List.replicate e.2 e.1).filter (· != k) := by
    induction l with
    | nil => rfl
    | cons e l ih =>
      obtain ⟨i, m⟩ := e
      obtain ⟨hi, hl'⟩ := List.pairwise_cons.1 hl
      have hrest (h : k ≤ i) : (l.flatMap fun e => List.replicate e.2 e.1).filter (· != k) =
          l.flatMap fun e => List.replicate e.2 e.1 := by
        apply List.filter_eq_self.2
        intro j hj
        obtain ⟨e, he, hje⟩ := List.mem_flatMap.1 hj
        have := List.eq_of_mem_replicate hje
        have := hi e he
        simp only [bne_iff_ne, ne_eq]
        omega
      rw [IdMap.alterEntries, List.flatMap_cons, List.filter_append]
      rcases Nat.lt_trichotomy k i with hk | hk | hk
      · have hik : (i != k) = true := by simp; omega
        rw [if_pos hk, hrest (Nat.le_of_lt hk), List.filter_replicate, if_pos hik]
        rfl
      · subst hk
        rw [if_neg (Nat.lt_irrefl k), if_pos rfl, hrest (Nat.le_refl k), List.filter_replicate]
        simp
      · have hik : (i != k) = true := by simp; omega
        rw [if_neg (by omega), if_neg (by omega), List.flatMap_cons, ih hl',
          List.filter_replicate, if_pos hik]
  exact this t.entries t.ascending

/-- More edges to a neighbour are more occurrences of it. -/
theorem spread_add (t : Tally) (k m : Nat) :
    (t.add k m).spread.Perm (t.spread ++ List.replicate m k) := by
  rw [List.perm_iff_count]
  intro j
  rw [List.count_append, List.count_replicate, count_spread, count_spread, count_add]
  by_cases hj : j = k
  · simp [hj]
  · have : (k == j) = false := by simpa using Ne.symm hj
    simp [hj, this]

/-- More edges to a neighbour make an entry for none but it. -/
theorem mem_keys_of_mem_keys_add (h : j ∈ (t.add k m).keys) : j ∈ t.keys ∨ j = k := by
  rw [IdMap.mem_keys_iff, IdMap.contains_iff] at h ⊢
  unfold add at h
  split at h
  · exact .inl h
  · rw [IdMap.get?_alter] at h
    split at h
    · exact .inr ‹_›
    · exact .inl h

/-- A single edge is one edge, whatever else the tally could hold. -/
theorem length_spread_of_single? (h : t.single?.isSome = true) : t.spread.length = 1 := by
  obtain ⟨k, hk⟩ := Option.isSome_iff_exists.1 h
  rw [single?_eq_some_iff] at hk
  simp [spread, hk]

/-! ## Tallies without zeros -/

/-- No entry counts zero edges. -/
def Positive (t : Tally) : Prop := ∀ k m, t.get? k = some m → 0 < m

theorem positive_empty : Positive IdMap.empty := by
  intro k m h
  rw [IdMap.get?_empty] at h
  cases h

theorem Positive.erase (ht : t.Positive) (k : Nat) : Positive (t.erase k) := by
  intro j m h
  rw [IdMap.get?_erase] at h
  split at h
  · cases h
  · exact ht j m h

theorem Positive.add (ht : t.Positive) (k m : Nat) : Positive (t.add k m) := by
  intro j d h
  unfold Tally.add at h
  by_cases hm : m = 0
  · rw [if_pos hm] at h
    exact ht j d h
  · rw [if_neg hm, IdMap.get?_alter] at h
    split at h
    · cases h
      rw [Words.wrap_unlimited]
      omega
    · exact ht j d h

theorem Positive.get?_eq (ht : t.Positive) (k : Nat) :
    t.get? k = if t.count k = 0 then none else some (t.count k) := by
  unfold count
  cases h : t.get? k with
  | none => rfl
  | some m =>
    have := ht k m h
    rw [Option.getD_some, if_neg (by omega)]

/-- Tallies without zeros are determined by their counts. -/
theorem Positive.ext (ht : t.Positive) (hu : u.Positive) (h : ∀ k, t.count k = u.count k) :
    t = u := by
  apply IdMap.ext
  intro k
  rw [ht.get?_eq, hu.get?_eq, h]

theorem Positive.contains_iff (ht : t.Positive) : t.contains k = true ↔ k ∈ t.spread := by
  rw [IdMap.contains_iff, mem_spread, ht.get?_eq]
  by_cases h : t.count k = 0
  · simp [h]
  · simp [h, Nat.pos_of_ne_zero h]

theorem Positive.mem_keys (ht : t.Positive) : k ∈ t.keys ↔ k ∈ t.spread := by
  rw [IdMap.mem_keys_iff, ht.contains_iff]

/-- There is nothing to erase for one that is no neighbour. -/
theorem Positive.erase_eq_self (ht : t.Positive) (hk : k ∉ t.spread) : t.erase k = t := by
  refine (ht.erase k).ext ht fun j => ?_
  rw [count_erase]
  split
  · rename_i hj
    subst hj
    rw [mem_spread] at hk
    omega
  · rfl

/-- A tally without zeros is a single edge when its list has one element. -/
theorem Positive.single?_eq_some_iff (ht : t.Positive) :
    t.single? = some k ↔ t.spread = [k] := by
  rw [Tally.single?_eq_some_iff]
  constructor
  · intro h
    simp [spread, h]
  · intro h
    have hcount (j : Nat) : t.count j = if j = k then 1 else 0 := by
      rw [← count_spread, h]
      by_cases hj : j = k
      · simp [hj]
      · simp [hj, Ne.symm hj]
    have hone : t = ⟨[(k, 1)], List.pairwise_singleton _ _⟩ := by
      refine ht.ext ?_ ?_
      · intro j m hj
        simp only [IdMap.get?, List.lookup_cons, List.lookup_nil] at hj
        split at hj
        · cases hj
          omega
        · cases hj
      · intro j
        rw [hcount]
        by_cases hj : j = k
        · simp [hj, count, IdMap.get?]
        · have : (j == k) = false := by simpa using hj
          simp [hj, count, IdMap.get?, List.lookup_cons, this]
    rw [hone]

theorem Positive.single?_isSome (ht : t.Positive) :
    t.single?.isSome = true ↔ t.spread.length = 1 := by
  rw [Option.isSome_iff_exists, List.length_eq_one_iff]
  exact exists_congr fun _ => ht.single?_eq_some_iff

end Wiring.Tally
