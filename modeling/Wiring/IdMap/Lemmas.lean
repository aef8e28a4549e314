import Wiring.IdMap.Basic

/-!
# Lookups in finite maps

What each operation on an `IdMap` does to its lookups, and how it changes the number of entries.
Together with `IdMap.ext` these laws are all that later proofs need of the representation.

## Main statements

- `IdMap.ext` — maps with the same lookups are equal
- `IdMap.get?_alter`, `IdMap.get?_insert`, `IdMap.get?_erase`, `IdMap.get?_modify` — updates
  change the lookup of one key
- `IdMap.mem_entries_iff` — the entries are the lookups that succeed
- `IdMap.size_erase_add_one` — erasing a present key removes exactly one entry
- `IdMap.size_filter_add_size_filter_not` — a test splits the entries in two
-/

namespace Wiring.IdMap

variable {β γ : Type} {m n : IdMap β} {j k : Nat}

theorem lookup_eq_none_of_ne {l : List (Nat × β)} (h : ∀ e ∈ l, k ≠ e.1) :
    l.lookup k = none := by
  induction l with
  | nil => rfl
  | cons head rest ih =>
    have hne : (k == head.1) = false := by simpa using h head List.mem_cons_self
    rw [List.lookup_cons, hne]
    exact ih fun e he => h e (List.mem_cons_of_mem _ he)

theorem lookup_eq_none_of_lt {l : List (Nat × β)} (h : ∀ e ∈ l, k < e.1) :
    l.lookup k = none :=
  lookup_eq_none_of_ne fun e he => Nat.ne_of_lt (h e he)

theorem lookup_eq_some_iff {l : List (Nat × β)} (hl : l.Pairwise (fun a b => a.1 < b.1)) {v : β} :
    l.lookup k = some v ↔ (k, v) ∈ l := by
  induction l with
  | nil => simp
  | cons head rest ih =>
    obtain ⟨j, w⟩ := head
    obtain ⟨hj, hrest⟩ := List.pairwise_cons.1 hl
    rw [List.lookup_cons]
    by_cases hkj : k = j
    · subst hkj
      have hnot : (k, v) ∉ rest := fun hmem => absurd (hj (k, v) hmem) (Nat.lt_irrefl k)
      simp [hnot, eq_comm]
    · have : (k == j) = false := by simpa using hkj
      simp [this, hkj, ih hrest]

/-- The entries are the lookups that succeed. -/
theorem mem_entries_iff {v : β} : (k, v) ∈ m.entries ↔ m.get? k = some v :=
  (lookup_eq_some_iff m.ascending).symm

theorem mem_keys_iff : k ∈ m.keys ↔ m.contains k = true := by
  simp only [keys, contains, List.mem_map, Option.isSome_iff_exists]
  constructor
  · rintro ⟨⟨j, v⟩, he, rfl⟩
    exact ⟨v, mem_entries_iff.1 he⟩
  · rintro ⟨v, hv⟩
    exact ⟨(k, v), mem_entries_iff.2 hv, rfl⟩

theorem mem_values_iff {v : β} : v ∈ m.values ↔ ∃ k, m.get? k = some v := by
  simp only [values, List.mem_map]
  constructor
  · rintro ⟨⟨k, w⟩, he, rfl⟩
    exact ⟨k, mem_entries_iff.1 he⟩
  · rintro ⟨k, hk⟩
    exact ⟨(k, v), mem_entries_iff.2 hk, rfl⟩

@[simp] theorem length_keys (m : IdMap β) : m.keys.length = m.size := List.length_map _

theorem pairwise_keys (m : IdMap β) : m.keys.Pairwise (· < ·) :=
  List.pairwise_map.2 m.ascending

theorem nodup_keys (m : IdMap β) : m.keys.Nodup :=
  m.pairwise_keys.imp Nat.ne_of_lt

/-- Ascending lists of entries with the same lookups are equal. -/
theorem eq_of_lookup_eq {l r : List (Nat × β)} (hl : l.Pairwise (fun a b => a.1 < b.1))
    (hr : r.Pairwise (fun a b => a.1 < b.1)) (h : ∀ k, l.lookup k = r.lookup k) : l = r := by
  induction l generalizing r with
  | nil =>
    cases r with
    | nil => rfl
    | cons b r =>
      obtain ⟨j, w⟩ := b
      simpa [List.lookup_cons] using h j
  | cons a l ih =>
    obtain ⟨i, v⟩ := a
    cases r with
    | nil => simpa [List.lookup_cons] using h i
    | cons b r =>
      obtain ⟨j, w⟩ := b
      obtain ⟨ha, hl'⟩ := List.pairwise_cons.1 hl
      obtain ⟨hb, hr'⟩ := List.pairwise_cons.1 hr
      have hab : (i, v) ∈ (j, w) :: r :=
        (lookup_eq_some_iff hr).1 (by rw [← h i]; simp)
      have hba : (j, w) ∈ (i, v) :: l :=
        (lookup_eq_some_iff hl).1 (by rw [h j]; simp)
      have heq : (i, v) = (j, w) := by
        rcases List.mem_cons.1 hab with hab | hab
        · exact hab
        · rcases List.mem_cons.1 hba with hba | hba
          · exact hba.symm
          · exact absurd (Nat.lt_trans (hb _ hab) (ha _ hba)) (Nat.lt_irrefl _)
      obtain ⟨rfl, rfl⟩ := Prod.mk.inj heq
      congr 1
      refine ih hl' hr' fun k => ?_
      have hk := h k
      rw [List.lookup_cons, List.lookup_cons] at hk
      by_cases hki : k = i
      · subst hki
        rw [lookup_eq_none_of_lt ha, lookup_eq_none_of_lt hb]
      · have : (k == i) = false := by simpa using hki
        simpa [this] using hk

/-- Maps with the same lookups are equal. -/
@[ext]
theorem ext (h : ∀ k, m.get? k = n.get? k) : m = n := by
  obtain ⟨l, hl⟩ := m
  obtain ⟨r, hr⟩ := n
  have : l = r := eq_of_lookup_eq hl hr h
  subst this
  rfl

/-! ## Single updates -/

@[simp] theorem get?_empty : (empty : IdMap β).get? k = none := rfl

theorem lookup_toList_append (o : Option β) {l : List (Nat × β)} (hk : ∀ e ∈ l, k < e.1) :
    (o.toList.map (k, ·) ++ l).lookup j = if j = k then o else l.lookup j := by
  cases o with
  | none =>
    split
    · rename_i hj
      subst hj
      simpa using lookup_eq_none_of_lt hk
    · simp
  | some v =>
    by_cases hj : j = k
    · simp [hj]
    · have : (j == k) = false := by simpa using hj
      simp [List.lookup_cons, this, hj]

theorem lookup_alterEntries {f : Option β → Option β} {l : List (Nat × β)}
    (hl : l.Pairwise (fun a b => a.1 < b.1)) :
    (alterEntries k f l).lookup j = if j = k then f (l.lookup k) else l.lookup j := by
  induction l with
  | nil => simpa [alterEntries] using lookup_toList_append (j := j) (f none) (l := []) (by simp)
  | cons head rest ih =>
    obtain ⟨i, w⟩ := head
    obtain ⟨hi, hrest⟩ := List.pairwise_cons.1 hl
    rw [alterEntries]
    split
    · rename_i hki
      have hlt : ∀ e ∈ (i, w) :: rest, k < e.1 := fun e he => by
        rcases List.mem_cons.1 he with rfl | he
        · exact hki
        · exact Nat.lt_trans hki (hi e he)
      rw [lookup_toList_append _ hlt, lookup_eq_none_of_lt hlt]
    · split
      · rename_i hki
        subst hki
        rw [lookup_toList_append _ hi]
        by_cases hj : j = k
        · simp [hj]
        · have : (j == k) = false := by simpa using hj
          simp [hj, List.lookup_cons, this]
      · rename_i hle hne
        have hki : (k == i) = false := by simpa using hne
        rw [List.lookup_cons, List.lookup_cons, List.lookup_cons, hki, ih hrest]
        by_cases hji : j = i
        · subst hji
          have : j ≠ k := fun h => hne h.symm
          simp [this]
        · have : (j == i) = false := by simpa using hji
          simp [this]

/-- An update changes the lookup of its key only. -/
theorem get?_alter {f : Option β → Option β} :
    (m.alter k f).get? j = if j = k then f (m.get? k) else m.get? j :=
  lookup_alterEntries m.ascending

theorem get?_insert {v : β} : (m.insert k v).get? j = if j = k then some v else m.get? j :=
  get?_alter

theorem get?_erase : (m.erase k).get? j = if j = k then none else m.get? j :=
  get?_alter

theorem get?_modify {f : β → β} :
    (m.modify k f).get? j = if j = k then (m.get? k).map f else m.get? j :=
  get?_alter

theorem contains_iff : m.contains k = true ↔ ∃ v, m.get? k = some v :=
  Option.isSome_iff_exists

theorem contains_insert {v : β} : (m.insert k v).contains j = (j == k || m.contains j) := by
  rw [contains, get?_insert]
  by_cases hj : j = k <;> simp [hj, contains]

/-! ## Bulk updates -/

theorem get?_map {f : Nat → β → γ} : (m.map f).get? k = (m.get? k).map (f k) := by
  have (l : List (Nat × β)) :
      (l.map fun e => (e.1, f e.1 e.2)).lookup k = (l.lookup k).map (f k) := by
    induction l with
    | nil => rfl
    | cons e l ih =>
      obtain ⟨i, v⟩ := e
      rw [List.map_cons, List.lookup_cons, List.lookup_cons]
      by_cases hk : k = i
      · simp [hk]
      · have : (k == i) = false := by simpa using hk
        simpa [this] using ih
  exact this m.entries

@[simp] theorem keys_map {f : Nat → β → γ} : (m.map f).keys = m.keys := by
  simp [keys, map, Function.comp_def]

theorem get?_shift {d : Nat} : (m.shift d).get? (k + d) = m.get? k := by
  have (l : List (Nat × β)) :
      (l.map fun e => (e.1 + d, e.2)).lookup (k + d) = l.lookup k := by
    induction l with
    | nil => rfl
    | cons e l ih =>
      obtain ⟨i, v⟩ := e
      rw [List.map_cons, List.lookup_cons, List.lookup_cons]
      by_cases hk : k = i
      · simp [hk]
      · have hne : (k == i) = false := by simpa using hk
        have hned : (k + d == i + d) = false := by simpa using hk
        simpa [hne, hned] using ih
  exact this m.entries

/-- No shifted key is below the distance of the shift. -/
theorem get?_shift_of_lt {d : Nat} (h : k < d) : (m.shift d).get? k = none := by
  refine lookup_eq_none_of_ne fun e he => ?_
  obtain ⟨e', _, rfl⟩ := List.mem_map.1 he
  simp only
  omega

theorem get?_filter {p : Nat → β → Bool} :
    (m.filter p).get? k = (m.get? k).filter (p k) := by
  cases hk : m.get? k with
  | none =>
    cases hf : (m.filter p).get? k with
    | none => rfl
    | some v =>
      have hmem := (List.mem_filter.1 (mem_entries_iff.2 hf)).1
      rw [mem_entries_iff, hk] at hmem
      exact absurd hmem (by simp)
  | some v =>
    have hmem := mem_entries_iff.2 hk
    cases hp : p k v with
    | true =>
      have : (k, v) ∈ (m.filter p).entries := List.mem_filter.2 ⟨hmem, hp⟩
      rw [mem_entries_iff.1 this, Option.filter_some, if_pos hp]
    | false =>
      rw [Option.filter_some, if_neg (by simp [hp])]
      cases hf : (m.filter p).get? k with
      | none => rfl
      | some w =>
        have hw := List.mem_filter.1 (mem_entries_iff.2 hf)
        rw [mem_entries_iff, hk] at hw
        have hvw : v = w := Option.some.inj hw.1
        subst hvw
        exact absurd hw.2 (by simp [hp])

theorem get?_filterMap {f : Nat → β → Option γ} :
    (m.filterMap f).get? k = (m.get? k).bind (f k) := by
  have (l : List (Nat × β)) (hl : l.Pairwise (fun a b => a.1 < b.1)) :
      (l.filterMap fun e => (f e.1 e.2).map (e.1, ·)).lookup k = (l.lookup k).bind (f k) := by
    induction l with
    | nil => rfl
    | cons e l ih =>
      obtain ⟨i, v⟩ := e
      obtain ⟨hi, hl'⟩ := List.pairwise_cons.1 hl
      rw [List.filterMap_cons, List.lookup_cons]
      by_cases hk : k = i
      · subst hk
        have hnone := ih hl'
        rw [lookup_eq_none_of_lt hi] at hnone
        cases hf : f k v with
        | none => simpa [hf] using hnone
        | some w => simp [hf]
      · have hki : (k == i) = false := by simpa using hk
        cases hf : f i v with
        | none => simpa [hf, hki] using ih hl'
        | some w => simpa [hf, List.lookup_cons, hki] using ih hl'
  exact this m.entries m.ascending

/-- In a bulk insertion the last listed entry of a key decides. -/
theorem get?_insertAll {l : List (Nat × β)} :
    (m.insertAll l).get? k = (l.reverse.lookup k).or (m.get? k) := by
  induction l generalizing m with
  | nil => rfl
  | cons e l ih =>
    obtain ⟨i, v⟩ := e
    rw [insertAll, List.foldl_cons, ← insertAll, ih, get?_insert, List.reverse_cons,
      List.lookup_append, Option.or_assoc, List.lookup_cons]
    congr 1
    by_cases hk : k = i
    · simp [hk]
    · have : (k == i) = false := by simpa using hk
      simp [hk, this]

theorem lookup_reverse {l : List (Nat × β)} (hl : l.Pairwise (fun a b => a.1 < b.1)) :
    l.reverse.lookup k = l.lookup k := by
  induction l with
  | nil => rfl
  | cons e l ih =>
    obtain ⟨he, hl'⟩ := List.pairwise_cons.1 hl
    rw [List.reverse_cons, List.lookup_append, ih hl', List.lookup_cons, List.lookup_cons]
    by_cases hk : k = e.1
    · subst hk
      rw [lookup_eq_none_of_lt he]
      simp
    · have : (k == e.1) = false := by simpa using hk
      simp [this]

/-- Under a common key the second map's value wins. -/
theorem get?_union : (m.union n).get? k = (n.get? k).or (m.get? k) := by
  rw [union, get?_insertAll, lookup_reverse n.ascending]
  rfl

/-! ## Number of entries -/

theorem length_alterEntries_none {l : List (Nat × β)} {v : β}
    (hl : l.Pairwise (fun a b => a.1 < b.1)) (h : l.lookup k = some v) :
    (alterEntries k (fun _ => none) l).length + 1 = l.length := by
  induction l with
  | nil => simp at h
  | cons head rest ih =>
    obtain ⟨j, w⟩ := head
    obtain ⟨hj, hrest⟩ := List.pairwise_cons.1 hl
    rw [alterEntries]
    split
    · rename_i hkj
      have hlt : ∀ e ∈ (j, w) :: rest, k < e.1 := fun e he => by
        rcases List.mem_cons.1 he with rfl | he
        · exact hkj
        · exact Nat.lt_trans hkj (hj e he)
      rw [lookup_eq_none_of_lt hlt] at h
      exact absurd h (by simp)
    · split
      · simp
      · rename_i hne
        have hkj : (k == j) = false := by simpa using hne
        rw [List.lookup_cons, hkj] at h
        rw [List.length_cons, List.length_cons, ih hrest h]

/-- Erasing a present key removes exactly one entry. -/
theorem size_erase_add_one {v : β} (h : m.get? k = some v) : (m.erase k).size + 1 = m.size :=
  length_alterEntries_none m.ascending h

theorem size_erase_lt {v : β} (h : m.get? k = some v) : (m.erase k).size < m.size := by
  have := size_erase_add_one h
  omega

theorem map_fst_alterEntries_map {f : β → β} (l : List (Nat × β)) :
    (alterEntries k (·.map f) l).map (·.1) = l.map (·.1) := by
  induction l with
  | nil => rfl
  | cons head rest ih =>
    obtain ⟨j, w⟩ := head
    rw [alterEntries]
    split
    · rfl
    · split
      · rename_i hkj
        simp [hkj]
      · simp [ih]

/-- Modifying a value keeps the keys. -/
@[simp] theorem keys_modify {f : β → β} : (m.modify k f).keys = m.keys :=
  map_fst_alterEntries_map m.entries

/-- Modifying a value keeps the number of entries. -/
@[simp] theorem size_modify {f : β → β} : (m.modify k f).size = m.size := by
  rw [← length_keys, keys_modify, length_keys]

/-- The entries that satisfy a test and those that do not are all entries. -/
theorem size_filter_add_size_filter_not {p : Nat → β → Bool} :
    (m.filter p).size + (m.filter fun k v => !p k v).size = m.size := by
  have (l : List (Nat × β)) : (l.filter fun e => p e.1 e.2).length
      + (l.filter fun e => !p e.1 e.2).length = l.length := by
    induction l with
    | nil => rfl
    | cons e l ih => cases h : p e.1 e.2 <;> simp [h] <;> omega
  exact this m.entries

theorem size_pos_of_isEmpty_eq_false (h : m.isEmpty = false) : 0 < m.size :=
  List.length_pos_iff.2 (by simpa [isEmpty] using h)

end Wiring.IdMap
