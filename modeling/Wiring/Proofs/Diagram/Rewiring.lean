import Wiring.Proofs.Diagram.Ranking

/-!
# New nodes on the edges of a node

Three ways to put new nodes of one label where edges are: onto dead ends that take over the edges
into a node, onto the edges out of a node, and as parentless nodes above given children. For every
old node it is said what becomes of its parents and children, and for the new ones what they are
joined to.

## Main definitions

- `Diagram.divert` — the edges into a node end at new nodes
- `Diagram.interpose` — the edges out of a node lead through new nodes
- `Diagram.feed` — new nodes above old ones

## Main statements

- `Diagram.above_divert`, `Diagram.below_divert`, `Diagram.divert_new`, and the same for the others
-/

namespace Wiring.Diagram

open scoped Unlimited

variable {α : Type} {g : Diagram α} {c k : Nat} {label : α} {ps ts : List Nat}

/-- Severs `c` from the nodes `ps`, and gives every edge that entered `c` a new node to end at. -/
def divert (g : Diagram α) (label : α) (c : Nat) (ps : List Nat) : Diagram α :=
  (g.severAll (ps.map (·, c))).attachAll label ((g.above c).map fun p => ([p], []))

/-- Severs `c` from the nodes `ts`, and puts a new node on every edge that left `c`. -/
def interpose (g : Diagram α) (label : α) (c : Nat) (ts : List Nat) : Diagram α :=
  (g.severAll (ts.map (c, ·))).attachAll label ((g.below c).map fun t => ([c], [t]))

/-- Adds a parentless node above every listed one. -/
def feed (g : Diagram α) (label : α) (ts : List Nat) : Diagram α :=
  g.attachAll label (ts.map fun t => ([], [t]))

theorem flatMap_map_singleton (l : List Nat) : (l.flatMap fun t => [t]) = l := by
  simp

theorem flatMap_const_singleton (l : List Nat) (i : Nat) :
    (l.flatMap fun _ => [i]) = List.replicate l.length i := by
  induction l with
  | nil => rfl
  | cons t l ih => rw [List.flatMap_cons, ih]; rfl

/-- A filter that lets no occurrence of `i` through shortens a list by as many at least. -/
theorem length_filter_add_count_le {l : List Nat} {f : Nat → Bool} {i : Nat}
    (hf : i ∈ l → f i = false) : (l.filter f).length + l.count i ≤ l.length := by
  induction l with
  | nil => exact Nat.le_refl 0
  | cons j l ih =>
    have ih := ih fun h => hf (List.mem_cons_of_mem j h)
    by_cases hj : j = i
    · subst hj
      rw [List.filter_cons_of_neg (by simp [hf List.mem_cons_self]), List.count_cons_self,
        List.length_cons]
      omega
    · have hcons : ((j :: l).filter f).length ≤ (l.filter f).length + 1 := by
        by_cases hfj : f j = true
        · rw [List.filter_cons_of_pos hfj]
          exact Nat.le_refl _
        · rw [List.filter_cons_of_neg hfj]
          exact Nat.le_succ _
      rw [List.count_cons_of_ne hj, List.length_cons]
      omega

/-! ## Diverting -/

section Divert

variable (hg : g.Coherent) (hids : g.IdsBelow) (hacyclic : g.Acyclic)
  (hps : ∀ p, p ∈ ps ↔ p ∈ g.above c)

include hg in
theorem endsIn_divert :
    EndsIn ((g.above c).map fun p => ([p], [])) (g.severAll (ps.map (·, c))) := by
  intro e he
  obtain ⟨p, hp, rfl⟩ := List.mem_map.1 he
  simpa using hg.contains_of_mem_above hp

include hg hids in
theorem Coherent.divert : (g.divert label c ps).Coherent :=
  (hg.severAll _).attachAll (hids.severAll _) (endsIn_divert hg)

include hids in
theorem IdsBelow.divert : (g.divert label c ps).IdsBelow :=
  (hids.severAll _).attachAll

include hg hids hacyclic in
theorem Acyclic.divert : (g.divert label c ps).Acyclic := by
  obtain ⟨r, hr⟩ := hacyclic.severAll hg (ps.map (·, c))
  apply hr.attachAll (hg.severAll _) (hids.severAll _) (endsIn_divert hg)
  intro e he p _ t ht
  obtain ⟨q, -, rfl⟩ := List.mem_map.1 he
  cases ht

@[simp] theorem nextId_divert :
    (g.divert label c ps).nextId = g.nextId + (g.above c).length := by
  simp [divert]

@[simp] theorem inputs_divert : (g.divert label c ps).inputs = g.inputs := by
  simp [divert]

@[simp] theorem outputs_divert : (g.divert label c ps).outputs = g.outputs := by
  simp [divert]

theorem label?_divert (hk : k < g.nextId) : (g.divert label c ps).label? k = g.label? k := by
  rw [divert, label?_attachAll (by rwa [nextId_severAll]), label?_severAll]

theorem contains_divert (hk : g.contains k = true) : (g.divert label c ps).contains k = true := by
  rw [divert, contains_attachAll, contains_severAll, hk, Bool.true_or]

include hg hids hacyclic hps in
theorem above_divert (label : α) (hk : g.contains k = true) :
    ((g.divert label c ps).above k).Perm (if k = c then [] else g.above k) := by
  obtain ⟨new, -, hlen, hperm⟩ := above_attachAll label (hids.severAll (ps.map (·, c)))
    (endsIn_divert hg) (by rwa [contains_severAll])
  -- the new nodes have no children, so that no old node gets a new parent
  have hnil : new = [] := by
    rw [← List.length_eq_zero_iff, hlen, List.flatMap_map,
      List.flatMap_eq_nil_iff.2 fun _ _ => rfl, List.count_nil]
  rw [hnil, List.append_nil,
    (hg.severAll_parents (fun p hp => hacyclic.not_mem_above hp) hps k).1] at hperm
  exact hperm

include hg hids hacyclic hps in
theorem below_divert (label : α) (hk : g.contains k = true) :
    ∃ new : List Nat, (∀ i ∈ new, g.nextId ≤ i) ∧ new.length = (g.above c).count k ∧
      ((g.divert label c ps).below k).Perm ((g.below k).filter (· != c) ++ new) := by
  obtain ⟨new, hnew, hlen, hperm⟩ := below_attachAll label (hids.severAll (ps.map (·, c)))
    (endsIn_divert hg) (by rwa [contains_severAll])
  refine ⟨new, ?_, ?_, ?_⟩
  · intro i hi
    have := (hnew i hi).1
    rwa [nextId_severAll] at this
  · rw [hlen, List.flatMap_map, flatMap_map_singleton]
  · rw [(hg.severAll_parents (fun p hp => hacyclic.not_mem_above hp) hps k).2] at hperm
    exact hperm

include hg hids in
theorem divert_new (label : α) (hk : g.nextId ≤ k) (hc : (g.divert label c ps).contains k = true) :
    ∃ p ∈ g.above c, (g.divert label c ps).label? k = some label ∧
      ((g.divert label c ps).above k).Perm [p] ∧ ((g.divert label c ps).below k).Perm [] := by
  have hbound : (g.divert label c ps).IdsBelow := hids.divert
  have hlt := hbound k hc
  rw [nextId_divert] at hlt
  obtain ⟨e, he, hnew⟩ := attachAll_new (j := k) label (hids.severAll (ps.map (·, c)))
    (endsIn_divert hg) (by rwa [nextId_severAll]) (by rwa [nextId_severAll, List.length_map])
  obtain ⟨p, hp, rfl⟩ := List.mem_map.1 he
  exact ⟨p, hp, hnew⟩

/-! On a cycle severing takes edges in both directions, so that less may be left. What is not next
to the node stays. -/

include hg hids in
theorem above_divert_of_not_mem (label : α) (hk : g.contains k = true) (hkc : k ≠ c)
    (hck : c ∉ g.above k) : ((g.divert label c ps).above k).Perm (g.above k) := by
  obtain ⟨new, -, hlen, hperm⟩ := above_attachAll label (hids.severAll (ps.map (·, c)))
    (endsIn_divert hg) (by rwa [contains_severAll])
  rw [List.flatMap_map, List.flatMap_eq_nil_iff.2 fun _ _ => rfl, List.count_nil,
    List.length_eq_zero_iff] at hlen
  have hpairs : ∀ e ∈ ps.map (·, c), e.1 = c ∨ e.2 = c := List.forall_mem_map.2 fun _ _ => .inr rfl
  rwa [hlen, List.append_nil, hg.above_severAll_of_not_mem hpairs hkc hck] at hperm

include hg hids in
theorem length_above_divert_le (label : α) (hk : g.contains k = true) :
    ((g.divert label c ps).above k).length ≤ (g.above k).length := by
  obtain ⟨new, -, hlen, hperm⟩ := above_attachAll label (hids.severAll (ps.map (·, c)))
    (endsIn_divert hg) (by rwa [contains_severAll])
  rw [List.flatMap_map, List.flatMap_eq_nil_iff.2 fun _ _ => rfl, List.count_nil] at hlen
  rw [divert, hperm.length_eq, List.length_append, hlen, hg.above_severAll]
  exact List.length_filter_le _ _

include hg hids hps in
theorem length_below_divert_le (label : α) (hk : g.contains k = true) :
    ((g.divert label c ps).below k).length ≤ (g.below k).length := by
  obtain ⟨new, -, hlen, hperm⟩ := below_attachAll label (hids.severAll (ps.map (·, c)))
    (endsIn_divert hg) (by rwa [contains_severAll])
  rw [List.flatMap_map, flatMap_map_singleton, hg.agree] at hlen
  rw [divert, hperm.length_eq, List.length_append, hlen, hg.below_severAll]
  -- the new children are as many as the edges to `c` that are gone
  refine length_filter_add_count_le fun hck => ?_
  rw [← Bool.not_eq_true, all_apart_left]
  exact fun h => h.1 ⟨rfl, (hps k).2 (hg.mem_above_iff.2 hck)⟩

end Divert

/-! ## Interposing -/

section Interpose

variable (hg : g.Coherent) (hids : g.IdsBelow) (hacyclic : g.Acyclic)
  (hts : ∀ t, t ∈ ts ↔ t ∈ g.below c)

include hg in
theorem endsIn_interpose :
    EndsIn ((g.below c).map fun t => ([c], [t])) (g.severAll (ts.map (c, ·))) := by
  intro e he
  obtain ⟨t, ht, rfl⟩ := List.mem_map.1 he
  simpa using ⟨contains_of_mem_below ht, hg.contains_of_mem_below ht⟩

include hg hids in
theorem Coherent.interpose : (g.interpose label c ts).Coherent :=
  (hg.severAll _).attachAll (hids.severAll _) (endsIn_interpose hg)

include hids in
theorem IdsBelow.interpose : (g.interpose label c ts).IdsBelow :=
  (hids.severAll _).attachAll

include hg hids hacyclic in
theorem Acyclic.interpose : (g.interpose label c ts).Acyclic := by
  obtain ⟨r, hr⟩ := hacyclic
  refine (hr.of_subset fun _ _ hu => mem_above_of_severAll hg hu).attachAll (hg.severAll _)
    (hids.severAll _) (endsIn_interpose hg) ?_
  intro e he p hp t ht
  obtain ⟨t', ht', rfl⟩ := List.mem_map.1 he
  rw [List.mem_singleton] at hp ht
  rw [hp, ht]
  exact hr c t' (hg.mem_above_iff.2 ht')

@[simp] theorem nextId_interpose :
    (g.interpose label c ts).nextId = g.nextId + (g.below c).length := by
  simp [interpose]

@[simp] theorem inputs_interpose : (g.interpose label c ts).inputs = g.inputs := by
  simp [interpose]

@[simp] theorem outputs_interpose : (g.interpose label c ts).outputs = g.outputs := by
  simp [interpose]

theorem label?_interpose (hk : k < g.nextId) :
    (g.interpose label c ts).label? k = g.label? k := by
  rw [interpose, label?_attachAll (by rwa [nextId_severAll]), label?_severAll]

include hg hacyclic in
theorem not_mem_below_of_mem_below : ∀ t ∈ g.below c, c ∉ g.below t := by
  intro t ht hc
  rw [← hg.mem_above_iff] at ht hc
  exact hacyclic.not_mem_above ht hc

include hg hids hacyclic hts in
theorem above_interpose (label : α) (hk : g.contains k = true) :
    ∃ new : List Nat, (∀ i ∈ new, g.nextId ≤ i) ∧ new.length = (g.below c).count k ∧
      ((g.interpose label c ts).above k).Perm ((g.above k).filter (· != c) ++ new) := by
  obtain ⟨new, hnew, hlen, hperm⟩ := above_attachAll label (hids.severAll (ts.map (c, ·)))
    (endsIn_interpose hg) (by rwa [contains_severAll])
  refine ⟨new, ?_, ?_, ?_⟩
  · intro i hi
    have := (hnew i hi).1
    rwa [nextId_severAll] at this
  · rw [hlen, List.flatMap_map, flatMap_map_singleton]
  · rw [(hg.severAll_children (not_mem_below_of_mem_below hg hacyclic) hts k).2] at hperm
    exact hperm

include hg hids hacyclic hts in
theorem below_interpose (label : α) (hk : g.contains k = true) :
    ((g.interpose label c ts).below k).length = (g.below k).length ∧
      (k ≠ c → ((g.interpose label c ts).below k).Perm (g.below k)) := by
  obtain ⟨new, hnew, hlen, hperm⟩ := below_attachAll label (hids.severAll (ts.map (c, ·)))
    (endsIn_interpose hg) (by rwa [contains_severAll])
  rw [(hg.severAll_children (not_mem_below_of_mem_below hg hacyclic) hts k).1] at hperm
  rw [List.flatMap_map, flatMap_const_singleton, List.count_replicate] at hlen
  by_cases hkc : k = c
  · rw [if_pos hkc, List.nil_append] at hperm
    rw [if_pos (by simpa using hkc.symm)] at hlen
    exact ⟨hperm.length_eq.trans (hkc ▸ hlen), fun h => absurd hkc h⟩
  · rw [if_neg hkc] at hperm
    rw [if_neg (by simpa using Ne.symm hkc), List.length_eq_zero_iff] at hlen
    rw [hlen, List.append_nil] at hperm
    exact ⟨hperm.length_eq, fun _ => hperm⟩

include hg hids in
theorem interpose_new (label : α) (hk : g.nextId ≤ k)
    (hc : (g.interpose label c ts).contains k = true) :
    ∃ t ∈ g.below c, (g.interpose label c ts).label? k = some label ∧
      ((g.interpose label c ts).above k).Perm [c] ∧
      ((g.interpose label c ts).below k).Perm [t] := by
  have hbound : (g.interpose label c ts).IdsBelow := hids.interpose
  have hlt := hbound k hc
  rw [nextId_interpose] at hlt
  obtain ⟨e, he, hnew⟩ := attachAll_new (j := k) label (hids.severAll (ts.map (c, ·)))
    (endsIn_interpose hg) (by rwa [nextId_severAll]) (by rwa [nextId_severAll, List.length_map])
  obtain ⟨t, ht, rfl⟩ := List.mem_map.1 he
  exact ⟨t, ht, hnew⟩

include hg hids in
theorem above_interpose_of_not_mem (label : α) (hk : g.contains k = true) (hkc : k ≠ c)
    (hck : c ∉ g.above k) : ((g.interpose label c ts).above k).Perm (g.above k) := by
  obtain ⟨new, -, hlen, hperm⟩ := above_attachAll label (hids.severAll (ts.map (c, ·)))
    (endsIn_interpose hg) (by rwa [contains_severAll])
  rw [List.flatMap_map, flatMap_map_singleton, ← hg.agree, List.count_eq_zero.2 hck,
    List.length_eq_zero_iff] at hlen
  have hpairs : ∀ e ∈ ts.map (c, ·), e.1 = c ∨ e.2 = c := List.forall_mem_map.2 fun _ _ => .inl rfl
  rwa [hlen, List.append_nil, hg.above_severAll_of_not_mem hpairs hkc hck] at hperm

include hg hids hts in
theorem length_above_interpose_le (label : α) (hk : g.contains k = true) :
    ((g.interpose label c ts).above k).length ≤ (g.above k).length := by
  obtain ⟨new, -, hlen, hperm⟩ := above_attachAll label (hids.severAll (ts.map (c, ·)))
    (endsIn_interpose hg) (by rwa [contains_severAll])
  rw [List.flatMap_map, flatMap_map_singleton, ← hg.agree] at hlen
  rw [interpose, hperm.length_eq, List.length_append, hlen, hg.above_severAll]
  refine length_filter_add_count_le fun hck => ?_
  rw [← Bool.not_eq_true, all_apart_right]
  exact fun h => h.2 ⟨rfl, (hts k).2 (hg.mem_above_iff.1 hck)⟩

include hg hids hts in
theorem length_below_interpose_le (label : α) (hk : g.contains k = true) :
    ((g.interpose label c ts).below k).length ≤ (g.below k).length := by
  obtain ⟨new, -, hlen, hperm⟩ := below_attachAll label (hids.severAll (ts.map (c, ·)))
    (endsIn_interpose hg) (by rwa [contains_severAll])
  rw [List.flatMap_map, flatMap_const_singleton, List.count_replicate] at hlen
  rw [interpose, hperm.length_eq, List.length_append, hlen, hg.below_severAll]
  by_cases hkc : k = c
  · subst hkc
    rw [if_pos (beq_self_eq_true k), List.filter_eq_nil_iff.2, List.length_nil, Nat.zero_add]
    intro t ht
    rw [all_apart_right]
    exact fun h => h.2 ⟨rfl, (hts t).2 ht⟩
  · rw [if_neg (by simpa using Ne.symm hkc)]
    exact List.length_filter_le _ _

end Interpose

/-! ## Feeding -/

section Feed

variable (hg : g.Coherent) (hids : g.IdsBelow) (hacyclic : g.Acyclic)
  (hts : ∀ t ∈ ts, g.contains t = true)

include hts in
theorem endsIn_feed : EndsIn (ts.map fun t => ([], [t])) g := by
  intro e he
  obtain ⟨t, ht, rfl⟩ := List.mem_map.1 he
  simpa using hts t ht

include hg hids hts in
theorem Coherent.feed : (g.feed label ts).Coherent := hg.attachAll hids (endsIn_feed hts)

include hids in
theorem IdsBelow.feed : (g.feed label ts).IdsBelow := hids.attachAll

include hg hids hacyclic hts in
theorem Acyclic.feed : (g.feed label ts).Acyclic := by
  obtain ⟨r, hr⟩ := hacyclic
  apply hr.attachAll hg hids (endsIn_feed hts)
  intro e he p hp
  obtain ⟨t, -, rfl⟩ := List.mem_map.1 he
  cases hp

@[simp] theorem nextId_feed : (g.feed label ts).nextId = g.nextId + ts.length := by
  simp [feed]

@[simp] theorem inputs_feed : (g.feed label ts).inputs = g.inputs := by
  simp [feed]

@[simp] theorem outputs_feed : (g.feed label ts).outputs = g.outputs := by
  simp [feed]

theorem label?_feed (hk : k < g.nextId) : (g.feed label ts).label? k = g.label? k :=
  label?_attachAll hk

include hids hts in
theorem above_feed (label : α) (hk : g.contains k = true) :
    ∃ new : List Nat, (∀ i ∈ new, g.nextId ≤ i) ∧ new.length = ts.count k ∧
      ((g.feed label ts).above k).Perm (g.above k ++ new) := by
  obtain ⟨new, hnew, hlen, hperm⟩ := above_attachAll label hids (endsIn_feed hts) hk
  rw [List.flatMap_map, flatMap_map_singleton] at hlen
  exact ⟨new, fun i hi => (hnew i hi).1, hlen, hperm⟩

include hids hts in
theorem below_feed (label : α) (hk : g.contains k = true) :
    ((g.feed label ts).below k).Perm (g.below k) := by
  obtain ⟨new, -, hlen, hperm⟩ := below_attachAll label hids (endsIn_feed hts) hk
  have hnil : new = [] := by
    rw [← List.length_eq_zero_iff, hlen, List.flatMap_map,
      List.flatMap_eq_nil_iff.2 fun _ _ => rfl, List.count_nil]
  rw [hnil, List.append_nil] at hperm
  exact hperm

include hids hts in
theorem feed_new (label : α) (hk : g.nextId ≤ k) (hc : (g.feed label ts).contains k = true) :
    ∃ t ∈ ts, (g.feed label ts).label? k = some label ∧
      ((g.feed label ts).above k).Perm [] ∧ ((g.feed label ts).below k).Perm [t] := by
  have hbound : (g.feed label ts).IdsBelow := hids.feed
  have hlt := hbound k hc
  rw [nextId_feed] at hlt
  obtain ⟨e, he, hnew⟩ := attachAll_new label hids (endsIn_feed hts) hk
    (by rwa [List.length_map])
  obtain ⟨t, ht, rfl⟩ := List.mem_map.1 he
  exact ⟨t, ht, hnew⟩

end Feed

end Wiring.Diagram
