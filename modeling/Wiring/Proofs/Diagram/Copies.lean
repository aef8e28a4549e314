import Wiring.Diagram.Renumber
import Wiring.Proofs.Diagram.Ranking

/-!
# Relabelled and renumbered diagrams

Diagrams are copied in two ways before they are put together: some nodes get other labels, and all
ids are raised by the same distance. Neither changes how the nodes are joined.

## Main definitions

- `Diagram.relabelAll` — other labels for listed nodes

## Main statements

- `Diagram.label?_relabelAll` — the labels after relabelling
- `Diagram.node?_shift`, `Diagram.above_shift`, `Diagram.below_shift` — a raised diagram
- `Diagram.clearance_le_iff` — the distances that are far enough to clear another diagram
- `Diagram.not_contains_apartFrom` — a diagram raised clear of another shares no id with it
-/

namespace Wiring

open scoped Unlimited

namespace IdMap

variable {β : Type} {m : IdMap β} {k : Nat}

@[simp] theorem shift_zero : m.shift 0 = m :=
  ext fun _ => get?_shift (d := 0)

theorem exists_minKey? (hk : m.contains k = true) :
    ∃ low, m.minKey? = some low ∧ m.contains low = true ∧ ∀ j, m.contains j = true → low ≤ j := by
  have hmem : k ∈ m.keys := mem_keys_iff.2 hk
  have hsorted := m.pairwise_keys
  simp only [minKey?, ← mem_keys_iff]
  cases hkeys : m.keys with
  | nil => simp [hkeys] at hmem
  | cons low rest =>
    rw [hkeys] at hsorted
    refine ⟨low, rfl, List.mem_cons_self, fun j hj => ?_⟩
    rcases List.mem_cons.1 hj with rfl | hrest
    · exact Nat.le_refl j
    · exact Nat.le_of_lt ((List.pairwise_cons.1 hsorted).1 j hrest)

theorem exists_maxKey? (hk : m.contains k = true) :
    ∃ high, m.maxKey? = some high ∧ m.contains high = true ∧
      ∀ j, m.contains j = true → j ≤ high := by
  have hmem : k ∈ m.keys := mem_keys_iff.2 hk
  have hsorted := m.pairwise_keys
  simp only [maxKey?, ← mem_keys_iff]
  rcases List.eq_nil_or_concat m.keys with hkeys | ⟨rest, high, hkeys⟩
  · simp [hkeys] at hmem
  · rw [hkeys, List.concat_eq_append] at hsorted ⊢
    refine ⟨high, List.getLast?_concat, by simp, fun j hj => ?_⟩
    rcases List.mem_append.1 hj with hrest | hlast
    · exact Nat.le_of_lt ((List.pairwise_append.1 hsorted).2.2 j hrest high (by simp))
    · rw [List.mem_singleton.1 hlast]

end IdMap

/-- Where ids do not wrap around none of them fall together. -/
theorem Tally.renumber_eq_shift (t : Tally) (d : Nat) : t.renumber d = t.shift d :=
  IdMap.ofList_entries (t.shift d)

theorem Tally.spread_renumber (t : Tally) (d : Nat) :
    (t.renumber d).spread = t.spread.map (· + d) := by
  rw [renumber_eq_shift]
  have (l : List (Nat × Nat)) :
      (l.map fun e => (e.1 + d, e.2)).flatMap (fun e => List.replicate e.2 e.1) =
        (l.flatMap fun e => List.replicate e.2 e.1).map (· + d) := by
    simp [List.flatMap_map, List.map_flatMap]
  exact this t.entries

theorem Tally.Positive.renumber {t : Tally} (ht : t.Positive) (d : Nat) :
    (t.renumber d).Positive := by
  intro k m hk
  rw [renumber_eq_shift] at hk
  by_cases hlt : k < d
  · rw [IdMap.get?_shift_of_lt hlt] at hk
    cases hk
  · obtain ⟨j, rfl⟩ := Nat.exists_eq_add_of_le' (Nat.le_of_not_lt hlt)
    rw [IdMap.get?_shift] at hk
    exact ht j m hk

theorem Node.shift_eq {α : Type} (n : Node α) (d : Nat) : n.shift d =
    { n with id := n.id + d, parents := n.parents.shift d, children := n.children.shift d } := by
  rw [Node.shift, Tally.renumber_eq_shift, Tally.renumber_eq_shift, Words.wrap_unlimited]

@[simp] theorem Node.shift_zero {α : Type} (n : Node α) : n.shift 0 = n := by
  rw [Node.shift_eq, IdMap.shift_zero, IdMap.shift_zero]
  rfl

namespace Diagram

variable {α : Type} {g h : Diagram α} {es : List (Nat × α)} {label : α} {i j k d : Nat}

/-! ## Relabelling -/

/-- Labels the listed nodes, one after the other. -/
def relabelAll (g : Diagram α) (es : List (Nat × α)) : Diagram α :=
  es.foldl (fun g e => g.relabel e.1 e.2) g

theorem relabelAll_cons (e : Nat × α) (es : List (Nat × α)) :
    g.relabelAll (e :: es) = (g.relabel e.1 e.2).relabelAll es := rfl

@[simp] theorem contains_relabelAll : (g.relabelAll es).contains j = g.contains j := by
  induction es generalizing g with
  | nil => rfl
  | cons e es ih => rw [relabelAll_cons, ih, contains_relabel]

@[simp] theorem above_relabelAll : (g.relabelAll es).above j = g.above j := by
  induction es generalizing g with
  | nil => rfl
  | cons e es ih => rw [relabelAll_cons, ih, above_relabel]

@[simp] theorem below_relabelAll : (g.relabelAll es).below j = g.below j := by
  induction es generalizing g with
  | nil => rfl
  | cons e es ih => rw [relabelAll_cons, ih, below_relabel]

@[simp] theorem inputs_relabelAll : (g.relabelAll es).inputs = g.inputs := by
  induction es generalizing g with
  | nil => rfl
  | cons e es ih => exact ih

@[simp] theorem outputs_relabelAll : (g.relabelAll es).outputs = g.outputs := by
  induction es generalizing g with
  | nil => rfl
  | cons e es ih => exact ih

@[simp] theorem nextId_relabelAll : (g.relabelAll es).nextId = g.nextId := by
  induction es generalizing g with
  | nil => rfl
  | cons e es ih => exact ih

/-- Nodes that are not listed keep their labels. -/
theorem label?_relabelAll_of_not_mem (hj : j ∉ es.map (·.1)) :
    (g.relabelAll es).label? j = g.label? j := by
  induction es generalizing g with
  | nil => rfl
  | cons e es ih =>
    rw [List.map_cons, List.mem_cons, not_or] at hj
    rw [relabelAll_cons, ih hj.2, label?_relabel, if_neg hj.1]

/-- Nodes that are listed once get the label that is listed with them. -/
theorem label?_relabelAll (hnodup : (es.map (·.1)).Nodup) (hmem : (j, label) ∈ es)
    (hj : g.contains j = true) : (g.relabelAll es).label? j = some label := by
  induction es generalizing g with
  | nil => cases hmem
  | cons e es ih =>
    rw [List.map_cons, List.nodup_cons] at hnodup
    rcases List.mem_cons.1 hmem with rfl | hmem
    · rw [relabelAll_cons, label?_relabelAll_of_not_mem hnodup.1]
      exact label?_relabel_self hj
    · exact ih hnodup.2 hmem (by rwa [contains_relabel])

theorem Coherent.relabelAll (hg : g.Coherent) (es : List (Nat × α)) :
    (g.relabelAll es).Coherent := by
  induction es generalizing g with
  | nil => exact hg
  | cons e es ih => exact ih (hg.relabel e.1 e.2)

theorem IdsBelow.relabelAll (h : g.IdsBelow) (es : List (Nat × α)) :
    (g.relabelAll es).IdsBelow := by
  intro k hk
  rw [contains_relabelAll] at hk
  rw [nextId_relabelAll]
  exact h k hk

/-! ## How far to raise -/

theorem ids_ne_nil (hk : g.contains k = true) : g.ids ≠ [] := List.ne_nil_of_mem (mem_ids.2 hk)

/-- **The distances that are far enough**: each node comes above the nodes of the other diagram, and
    not below its next id. -/
theorem clearance_le_iff (hg : g.ids ≠ []) (hh : h.ids ≠ []) : g.clearance h ≤ d ↔
    ∀ k, g.contains k = true → h.nextId ≤ k + d ∧ ∀ j, h.contains j = true → j < k + d := by
  obtain ⟨i, hi⟩ := List.exists_mem_of_ne_nil _ hg
  obtain ⟨j, hj⟩ := List.exists_mem_of_ne_nil _ hh
  obtain ⟨low, hlow, hlowIn, hleast⟩ := IdMap.exists_minKey? (mem_ids.1 hi)
  obtain ⟨high, hhigh, hhighIn, hmost⟩ := IdMap.exists_maxKey? (mem_ids.1 hj)
  have hclear : g.clearance h = max (high + 1) h.nextId - low := by
    rw [clearance, minId?, maxId?, hlow, hhigh]
    dsimp only
    rw [Words.wrap_unlimited]
    omega
  rw [hclear]
  constructor
  · intro hle k hk
    have hlowk := hleast k hk
    refine ⟨by omega, fun j hj => ?_⟩
    have hjhigh := hmost j hj
    omega
  · -- the smallest id has the longest way to go, and the largest one to pass
    intro hall
    obtain ⟨hnext, habove⟩ := hall low hlowIn
    have hhighlow := habove high hhighIn
    omega

/-! ## Raising ids -/

@[simp] theorem inputs_shift : (g.shift d).inputs = g.inputs.map (· + d) := by
  unfold shift
  split
  · rename_i hd
    simp [hd]
  · rfl

@[simp] theorem outputs_shift : (g.shift d).outputs = g.outputs.map (· + d) := by
  unfold shift
  split
  · rename_i hd
    simp [hd]
  · rfl

@[simp] theorem nextId_shift : (g.shift d).nextId = g.nextId + d := by
  unfold shift
  split
  · rename_i hd
    rw [hd, Nat.add_zero]
  · rfl

section Stored

variable (hid : ∀ k n, g.node? k = some n → n.id = k)
include hid

/-- If nodes are stored under the ids they go by, then all of them move by the same distance. -/
theorem nodes_shift : (g.shift d).nodes = (g.nodes.map fun _ n => n.shift d).shift d := by
  unfold shift
  split
  · rename_i hd
    rw [hd, IdMap.shift_zero]
    apply IdMap.ext
    intro k
    rw [IdMap.get?_map]
    simp
  · have hentries : (g.nodes.values.map fun n => ((n.shift d).id, n.shift d)) =
        ((g.nodes.map fun _ n => n.shift d).shift d).entries := by
      show (g.nodes.entries.map (·.2)).map _ =
        (g.nodes.entries.map fun e => (e.1, e.2.shift d)).map fun e => (e.1 + d, e.2)
      rw [List.map_map, List.map_map]
      apply List.map_congr_left
      intro e he
      have : e.2.id = e.1 := hid e.1 e.2 (IdMap.mem_entries_iff.1 he)
      simp [Node.shift_eq, this]
    show IdMap.ofList _ = _
    rw [hentries, IdMap.ofList_entries]

theorem node?_shift : (g.shift d).node? (k + d) = (g.node? k).map (·.shift d) := by
  rw [node?, nodes_shift hid, IdMap.get?_shift, IdMap.get?_map]
  rfl

theorem contains_shift : (g.shift d).contains (k + d) = g.contains k := by
  rw [contains_eq_isSome, contains_eq_isSome, node?_shift hid, Option.isSome_map]

theorem exists_of_contains_shift (hj : (g.shift d).contains j = true) :
    ∃ k, j = k + d ∧ g.contains k = true := by
  by_cases hlt : j < d
  · rw [contains, nodes_shift hid, IdMap.contains, IdMap.get?_shift_of_lt hlt] at hj
    cases hj
  · obtain ⟨k, rfl⟩ := Nat.exists_eq_add_of_le' (Nat.le_of_not_lt hlt)
    exact ⟨k, rfl, by rwa [contains_shift hid] at hj⟩

theorem label?_shift : (g.shift d).label? (k + d) = g.label? k := by
  rw [label?, label?, node?_shift hid, Option.map_map]
  rfl

theorem above_shift : (g.shift d).above (k + d) = (g.above k).map (· + d) := by
  rw [above, above, node?_shift hid]
  cases g.node? k with
  | none => rfl
  | some n => exact Tally.spread_renumber n.parents d

theorem below_shift : (g.shift d).below (k + d) = (g.below k).map (· + d) := by
  rw [below, below, node?_shift hid]
  cases g.node? k with
  | none => rfl
  | some n => exact Tally.spread_renumber n.children d

theorem edges_shift (u v : Nat) : (g.shift d).edges (u + d) (v + d) = g.edges u v := by
  have hinj : Function.Injective (· + d) := fun _ _ heq => Nat.add_right_cancel heq
  rw [edges, below_shift hid, List.count_map_of_injective _ _ hinj, edges]

/-- The nodes of a raised diagram are raised nodes. -/
theorem exists_of_node?_shift {n : Node α} (hn : (g.shift d).node? j = some n) :
    ∃ k m, j = k + d ∧ g.node? k = some m ∧ n = m.shift d := by
  obtain ⟨k, rfl, -⟩ := exists_of_contains_shift hid (contains_iff.2 ⟨n, hn⟩)
  rw [node?_shift hid] at hn
  obtain ⟨m, hm, rfl⟩ := Option.map_eq_some_iff.1 hn
  exact ⟨k, m, rfl, hm, rfl⟩

/-- **A diagram raised clear of another shares no id with it.** -/
theorem not_contains_apartFrom (hk : h.contains k = true) :
    (g.apartFrom h).contains k = false := by
  rw [← Bool.not_eq_true]
  intro hshift
  obtain ⟨j, hj, hjg⟩ := exists_of_contains_shift hid hshift
  have habove := (clearance_le_iff (ids_ne_nil hjg) (ids_ne_nil hk)).1 (Nat.le_refl _) j hjg
  have hkj := habove.2 k hk
  omega

end Stored

theorem Coherent.shift (hg : g.Coherent) (d : Nat) : (g.shift d).Coherent where
  id_eq j n hn := by
    obtain ⟨k, m, rfl, hm, rfl⟩ := exists_of_node?_shift hg.id_eq hn
    exact congrArg (· + d) (hg.id_eq k m hm)
  positive j n hn := by
    obtain ⟨k, m, rfl, hm, rfl⟩ := exists_of_node?_shift hg.id_eq hn
    obtain ⟨hp, hc⟩ := hg.positive k m hm
    exact ⟨hp.renumber d, hc.renumber d⟩
  agree u v := by
    have hinj : Function.Injective (· + d) := fun _ _ heq => Nat.add_right_cancel heq
    -- both lists are empty unless `u` and `v` are raised ids
    by_cases hu : ∃ k, u = k + d
    · obtain ⟨u, rfl⟩ := hu
      rw [below_shift hg.id_eq]
      by_cases hv : ∃ k, v = k + d
      · obtain ⟨v, rfl⟩ := hv
        rw [above_shift hg.id_eq, List.count_map_of_injective _ _ hinj,
          List.count_map_of_injective _ _ hinj, hg.agree]
      · have hvnil : (g.shift d).above v = [] := above_eq_nil <| Bool.eq_false_iff.2 fun hc => by
          obtain ⟨k, hk, -⟩ := exists_of_contains_shift hg.id_eq hc
          exact hv ⟨k, hk⟩
        rw [hvnil, List.count_nil, eq_comm, List.count_eq_zero]
        intro hmem
        obtain ⟨k, -, rfl⟩ := List.mem_map.1 hmem
        exact hv ⟨k, rfl⟩
    · have hunil : (g.shift d).below u = [] := below_eq_nil <| Bool.eq_false_iff.2 fun hc => by
        obtain ⟨k, hk, -⟩ := exists_of_contains_shift hg.id_eq hc
        exact hu ⟨k, hk⟩
      rw [hunil, List.count_nil, List.count_eq_zero]
      intro hmem
      obtain ⟨v, rfl, -⟩ := exists_of_contains_shift hg.id_eq (Diagram.contains_of_mem_above hmem)
      rw [above_shift hg.id_eq] at hmem
      obtain ⟨k, -, rfl⟩ := List.mem_map.1 hmem
      exact hu ⟨k, rfl⟩

theorem IdsBelow.shift (h : g.IdsBelow) (hg : g.Coherent) (d : Nat) : (g.shift d).IdsBelow := by
  intro j hj
  obtain ⟨k, rfl, hk⟩ := exists_of_contains_shift hg.id_eq hj
  rw [nextId_shift]
  exact Nat.add_lt_add_right (h k hk) d

end Diagram

end Wiring
