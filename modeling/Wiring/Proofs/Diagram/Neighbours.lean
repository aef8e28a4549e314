import Wiring.Diagram.Lemmas
import Wiring.Proofs.Tally.Spread

/-!
# Diagrams seen through their neighbour lists

For the theory of diagrams a node is its label, the list of its parents and the list of its
children, each neighbour standing there once for every parallel edge. A diagram is coherent when
its nodes know their ids and the two ends of every edge agree, and the basic changes of a diagram
are described by what they do to the two lists.

## Main definitions

- `Diagram.above`, `Diagram.below` — parents and children with multiplicity
- `Diagram.edges` — the multiplicity of an edge
- `Diagram.Stored` — nodes know their ids
- `Diagram.Coherent` — and no count is zero, and the ends of edges agree
- `Diagram.IdsBelow` — all ids are smaller than the next one to be given out

## Main statements

- `Diagram.Coherent.above_removeNode`, `Diagram.Coherent.below_removeNode` — a removed node leaves
  all lists
- `Diagram.Coherent.above_sever`, `Diagram.Coherent.below_sever` — what severing two nodes leaves
- `Diagram.Coherent.relabel`, `Diagram.Coherent.removeNode`, `Diagram.Coherent.sever` — coherence
  is kept
-/

namespace Wiring.Diagram

open scoped Unlimited

variable {α : Type} {g : Diagram α} {i j k a b : Nat}

/-- The parents of the node under `k`, each once for every edge. -/
def above (g : Diagram α) (k : Nat) : List Nat := (g.node? k).elim [] (·.parents.spread)

/-- The children of the node under `k`, each once for every edge. -/
def below (g : Diagram α) (k : Nat) : List Nat := (g.node? k).elim [] (·.children.spread)

/-- The number of parallel edges from `u` to `v`, as `u` counts them. -/
def edges (g : Diagram α) (u v : Nat) : Nat := (g.below u).count v

/-- No edge is counted zero times. -/
def Positive (g : Diagram α) : Prop :=
  ∀ k n, g.node? k = some n → n.parents.Positive ∧ n.children.Positive

/-- Nodes are stored under the ids they go by. -/
def Stored (g : Diagram α) : Prop := ∀ k n, g.node? k = some n → n.id = k

instance (g : Diagram α) : Decidable g.Stored :=
  decidable_of_iff (∀ e ∈ g.nodes.entries, e.2.id = e.1)
    ⟨fun h _ _ hn => h _ (IdMap.mem_entries_iff.2 hn),
      fun h e he => h e.1 e.2 (IdMap.mem_entries_iff.1 he)⟩

/-- **A diagram without contradictions**: nodes are stored under the ids they go by, no edge is
    counted zero times, and a node counts a child as often as the child counts it. -/
structure Coherent (g : Diagram α) : Prop where
  id_eq : ∀ k n, g.node? k = some n → n.id = k
  positive : g.Positive
  agree : ∀ u v, (g.above v).count u = (g.below u).count v

/-- The next id is larger than all that are in use. -/
def IdsBelow (g : Diagram α) : Prop := ∀ k, g.contains k = true → k < g.nextId

theorem Coherent.stored (h : g.Coherent) : g.Stored := h.id_eq

theorem contains_iff : g.contains k = true ↔ ∃ n, g.node? k = some n := IdMap.contains_iff

theorem mem_ids : k ∈ g.ids ↔ g.contains k = true := IdMap.mem_keys_iff

instance (g : Diagram α) : Decidable g.IdsBelow :=
  decidable_of_iff (∀ k ∈ g.ids, k < g.nextId) <| by
    simp only [IdsBelow, mem_ids]

theorem contains_iff_label? : g.contains k = true ↔ ∃ l, g.label? k = some l := by
  rw [contains_eq_isSome, label?]
  cases g.node? k <;> simp

theorem above_of_node? {n : Node α} (h : g.node? k = some n) : g.above k = n.parents.spread := by
  rw [above, h]
  rfl

theorem below_of_node? {n : Node α} (h : g.node? k = some n) : g.below k = n.children.spread := by
  rw [below, h]
  rfl

theorem length_above_of_node? {n : Node α} (h : g.node? k = some n) :
    (g.above k).length = n.indegree := by
  rw [above_of_node? h, Tally.length_spread, Node.indegree]

theorem length_below_of_node? {n : Node α} (h : g.node? k = some n) :
    (g.below k).length = n.outdegree := by
  rw [below_of_node? h, Tally.length_spread, Node.outdegree]

theorem above_eq_nil_iff {n : Node α} (h : g.node? k = some n) :
    g.above k = [] ↔ n.indegree = 0 := by
  rw [← length_above_of_node? h, List.length_eq_zero_iff]

theorem below_eq_nil_iff {n : Node α} (h : g.node? k = some n) :
    g.below k = [] ↔ n.outdegree = 0 := by
  rw [← length_below_of_node? h, List.length_eq_zero_iff]

theorem contains_of_mem_above (h : i ∈ g.above k) : g.contains k = true := by
  rw [contains_eq_isSome]
  cases hk : g.node? k with
  | none => simp [above, hk] at h
  | some n => rfl

theorem contains_of_mem_below (h : i ∈ g.below k) : g.contains k = true := by
  rw [contains_eq_isSome]
  cases hk : g.node? k with
  | none => simp [below, hk] at h
  | some n => rfl

theorem above_eq_nil (h : g.contains k = false) : g.above k = [] :=
  List.eq_nil_iff_forall_not_mem.2 fun i hi => by
    rw [contains_of_mem_above hi] at h
    cases h

theorem below_eq_nil (h : g.contains k = false) : g.below k = [] :=
  List.eq_nil_iff_forall_not_mem.2 fun i hi => by
    rw [contains_of_mem_below hi] at h
    cases h

theorem IdsBelow.not_contains (h : g.IdsBelow) (hk : g.nextId ≤ k) : g.contains k = false := by
  rw [← Bool.not_eq_true]
  intro hc
  have := h k hc
  omega

namespace Coherent

theorem mem_above_iff (hg : g.Coherent) : i ∈ g.above k ↔ k ∈ g.below i := by
  rw [← List.count_pos_iff, ← List.count_pos_iff, hg.agree]

theorem contains_of_mem_above (hg : g.Coherent) (h : i ∈ g.above k) : g.contains i = true :=
  Diagram.contains_of_mem_below (hg.mem_above_iff.1 h)

theorem contains_of_mem_below (hg : g.Coherent) (h : i ∈ g.below k) : g.contains i = true :=
  Diagram.contains_of_mem_above (hg.mem_above_iff.2 h)

theorem edges_eq_above (hg : g.Coherent) (u v : Nat) : g.edges u v = (g.above v).count u :=
  (hg.agree u v).symm

/-- Edges join nodes. -/
theorem edges_eq_zero (hg : g.Coherent) (h : g.contains a = false ∨ g.contains b = false) :
    g.edges a b = 0 := by
  rcases h with ha | hb
  · rw [edges, below_eq_nil ha, List.count_nil]
  · rw [hg.edges_eq_above, above_eq_nil hb, List.count_nil]

end Coherent

/-! ## Labels -/

theorem node?_relabel {label : α} : (g.relabel i label).node? j =
    if j = i then (g.node? i).map (·.relabel label) else g.node? j :=
  node?_updateNode

@[simp] theorem contains_relabel {label : α} :
    (g.relabel i label).contains j = g.contains j :=
  contains_updateNode

@[simp] theorem above_relabel {label : α} : (g.relabel i label).above j = g.above j := by
  rw [above, above, node?_relabel]
  by_cases hj : j = i
  · subst hj
    cases g.node? j <;> simp [Node.relabel]
  · rw [if_neg hj]

@[simp] theorem below_relabel {label : α} : (g.relabel i label).below j = g.below j := by
  rw [below, below, node?_relabel]
  by_cases hj : j = i
  · subst hj
    cases g.node? j <;> simp [Node.relabel]
  · rw [if_neg hj]

theorem label?_relabel {label : α} : (g.relabel i label).label? j =
    if j = i then (g.label? i).map fun _ => label else g.label? j := by
  rw [label?, node?_relabel]
  by_cases hj : j = i
  · subst hj
    rw [if_pos rfl, if_pos rfl, label?]
    cases g.node? j <;> rfl
  · rw [if_neg hj, if_neg hj, label?]

theorem label?_relabel_self {label : α} (h : g.contains i = true) :
    (g.relabel i label).label? i = some label := by
  obtain ⟨old, hold⟩ := contains_iff_label?.1 h
  rw [label?_relabel, if_pos rfl, hold, Option.map_some]

theorem Coherent.relabel (hg : g.Coherent) (i : Nat) (label : α) :
    (g.relabel i label).Coherent where
  id_eq k n h := by
    rw [node?_relabel] at h
    split at h
    · rename_i hk
      subst hk
      obtain ⟨m, hm, rfl⟩ := Option.map_eq_some_iff.1 h
      exact hg.id_eq k m hm
    · exact hg.id_eq k n h
  positive k n h := by
    rw [node?_relabel] at h
    split at h
    · obtain ⟨m, hm, rfl⟩ := Option.map_eq_some_iff.1 h
      exact hg.positive i m hm
    · exact hg.positive k n h
  agree u v := by
    rw [above_relabel, below_relabel]
    exact hg.agree u v

theorem IdsBelow.relabel (h : g.IdsBelow) (i : Nat) (label : α) :
    (g.relabel i label).IdsBelow := fun k hk => by
  rw [contains_relabel] at hk
  exact h k hk

/-! ## Removal -/

theorem Coherent.erase_children (hg : g.Coherent) {n gone : Node α} (hn : g.node? j = some n)
    (hi : g.node? i = some gone) (h : gone.parents.contains j = false) :
    n.children.erase i = n.children := by
  refine (hg.positive j n hn).2.erase_eq_self fun hmem => ?_
  rw [← below_of_node? hn, ← hg.mem_above_iff, above_of_node? hi,
    ← (hg.positive i gone hi).1.contains_iff, h] at hmem
  cases hmem

theorem Coherent.erase_parents (hg : g.Coherent) {n gone : Node α} (hn : g.node? j = some n)
    (hi : g.node? i = some gone) (h : gone.children.contains j = false) :
    n.parents.erase i = n.parents := by
  refine (hg.positive j n hn).1.erase_eq_self fun hmem => ?_
  rw [← above_of_node? hn, hg.mem_above_iff, below_of_node? hi,
    ← (hg.positive i gone hi).2.contains_iff, h] at hmem
  cases hmem

theorem Coherent.erase_absent (hg : g.Coherent) {n : Node α} (hn : g.node? j = some n)
    (hi : g.contains i = false) : (n.eraseChild i).eraseParent i = n := by
  have hp : n.parents.erase i = n.parents := by
    refine (hg.positive j n hn).1.erase_eq_self fun hmem => ?_
    rw [← above_of_node? hn] at hmem
    rw [hg.contains_of_mem_above hmem] at hi
    cases hi
  have hc : n.children.erase i = n.children := by
    refine (hg.positive j n hn).2.erase_eq_self fun hmem => ?_
    rw [← below_of_node? hn] at hmem
    rw [hg.contains_of_mem_below hmem] at hi
    cases hi
  cases n
  simp only [Node.eraseChild, Node.eraseParent] at hp hc ⊢
  rw [hp, hc]

/-- In a coherent diagram all nodes forget one that is removed. -/
theorem Coherent.node?_removeNode (hg : g.Coherent) : (g.removeNode i).node? j =
    if j = i then none else (g.node? j).map fun n => (n.eraseChild i).eraseParent i := by
  rw [Diagram.node?_removeNode]
  split
  · rfl
  · cases hi : g.node? i with
    | none =>
      have hc : g.contains i = false := by rw [contains_eq_isSome, hi]; rfl
      cases hn : g.node? j with
      | none => rfl
      | some n => simp [hg.erase_absent hn hc]
    | some gone =>
      cases hn : g.node? j with
      | none => rfl
      | some n =>
        simp only [Option.map_some, forget, Node.eraseChild, Node.eraseParent]
        congr 2
        · cases h : gone.children.contains j with
          | true => rfl
          | false => exact (hg.erase_parents hn hi h).symm
        · cases h : gone.parents.contains j with
          | true => rfl
          | false => exact (hg.erase_children hn hi h).symm

/-- An id without a node is passed over. -/
theorem removeNode_eq_self (h : g.contains i = false) : g.removeNode i = g := by
  rw [contains_eq_isSome, Option.isSome_eq_false_iff, Option.isNone_iff_eq_none] at h
  rw [removeNode, h]

theorem size_removeNode_add_one (h : g.contains i = true) : (g.removeNode i).size + 1 = g.size := by
  obtain ⟨gone, hi⟩ := contains_iff.1 h
  rw [removeNode, hi]
  change ((g.nodes.erase i).map (forget i gone)).size + 1 = g.nodes.size
  rw [← IdMap.size_erase_add_one hi, ← IdMap.length_keys, IdMap.keys_map, IdMap.length_keys]

theorem contains_removeNode : (g.removeNode i).contains j = (g.contains j && j != i) := by
  rw [contains_eq_isSome, contains_eq_isSome, node?_removeNode]
  by_cases hj : j = i
  · simp [hj]
  · cases g.node? i <;> simp [hj]

theorem contains_removeNode_iff :
    (g.removeNode i).contains j = true ↔ g.contains j = true ∧ j ≠ i := by
  rw [contains_removeNode, Bool.and_eq_true, bne_iff_ne]

theorem label?_removeNode :
    (g.removeNode i).label? j = if j = i then none else g.label? j := by
  rw [label?, node?_removeNode]
  by_cases hj : j = i
  · simp [hj]
  · rw [if_neg hj, if_neg hj, label?]
    cases g.node? i with
    | none => rfl
    | some gone => cases g.node? j <;> rfl

theorem Coherent.above_removeNode (hg : g.Coherent) : (g.removeNode i).above j =
    if j = i then [] else (g.above j).filter (· != i) := by
  rw [above, hg.node?_removeNode]
  split
  · rfl
  · cases hn : g.node? j with
    | none => simp [above, hn]
    | some n => exact (Tally.spread_erase n.parents i).trans (by rw [above_of_node? hn])

theorem Coherent.below_removeNode (hg : g.Coherent) : (g.removeNode i).below j =
    if j = i then [] else (g.below j).filter (· != i) := by
  rw [below, hg.node?_removeNode]
  split
  · rfl
  · cases hn : g.node? j with
    | none => simp [below, hn]
    | some n => exact (Tally.spread_erase n.children i).trans (by rw [below_of_node? hn])

/-- Removing a parentless node leaves all other lists of children as they are. -/
theorem Coherent.below_removeNode_source (hg : g.Coherent) (hi : g.above i = []) (hj : j ≠ i) :
    (g.removeNode i).below j = g.below j := by
  rw [hg.below_removeNode, if_neg hj, List.filter_eq_self]
  intro c hc
  rw [bne_iff_ne]
  rintro rfl
  rw [← hg.mem_above_iff, hi] at hc
  cases hc

/-- Removing a node leaves the parents of a node as they are that is not among its children. -/
theorem Coherent.above_removeNode_of_not_mem (hg : g.Coherent) (hj : j ≠ i)
    (h : j ∉ g.below i) : (g.removeNode i).above j = g.above j := by
  rw [hg.above_removeNode, if_neg hj, List.filter_eq_self]
  intro p hp
  rw [bne_iff_ne]
  rintro rfl
  exact h (hg.mem_above_iff.1 hp)

/-- The children of a parentless node stay when it is removed. -/
theorem Coherent.contains_child_removeNode (hg : g.Coherent) (hi : g.above i = [])
    (hj : j ∈ g.below i) : (g.removeNode i).contains j = true := by
  refine contains_removeNode_iff.2 ⟨hg.contains_of_mem_below hj, ?_⟩
  rintro rfl
  rw [← hg.mem_above_iff, hi] at hj
  cases hj

@[simp] theorem nextId_removeNode : (g.removeNode i).nextId = g.nextId := by
  unfold removeNode
  split <;> rfl

theorem inputs_removeNode_eq : (g.removeNode i).inputs =
    if g.contains i = true then g.inputs.filter (· != i) else g.inputs := by
  rw [contains_eq_isSome]
  unfold removeNode
  cases g.node? i <;> rfl

theorem outputs_removeNode_eq : (g.removeNode i).outputs =
    if g.contains i = true then g.outputs.filter (· != i) else g.outputs := by
  rw [contains_eq_isSome]
  unfold removeNode
  cases g.node? i <;> rfl

theorem inputs_removeNode (h : i ∈ g.inputs → g.contains i = true) :
    (g.removeNode i).inputs = g.inputs.filter (· != i) := by
  unfold removeNode
  cases hi : g.node? i with
  | some gone => rfl
  | none =>
    have hnot : i ∉ g.inputs := fun hmem => by
      have := h hmem
      rw [contains_eq_isSome, hi] at this
      cases this
    refine (List.filter_eq_self.2 ?_).symm
    intro j hj
    simpa using fun hji : j = i => hnot (hji ▸ hj)

theorem outputs_removeNode (h : i ∉ g.outputs) : (g.removeNode i).outputs = g.outputs := by
  unfold removeNode
  split
  · rfl
  · apply List.filter_eq_self.2
    intro j hj
    simpa using fun hji : j = i => h (hji ▸ hj)

theorem count_filter_ne {l : List Nat} :
    (l.filter (· != i)).count j = if j = i then 0 else l.count j := by
  by_cases hj : j = i
  · subst hj
    rw [if_pos rfl, List.count_eq_zero]
    simp
  · rw [if_neg hj, List.count_filter (by simpa using hj)]

theorem Coherent.removeNode (hg : g.Coherent) (i : Nat) : (g.removeNode i).Coherent where
  id_eq k n h := by
    rw [hg.node?_removeNode] at h
    split at h
    · cases h
    · obtain ⟨m, hm, rfl⟩ := Option.map_eq_some_iff.1 h
      exact hg.id_eq k m hm
  positive k n h := by
    rw [hg.node?_removeNode] at h
    split at h
    · cases h
    · obtain ⟨m, hm, rfl⟩ := Option.map_eq_some_iff.1 h
      exact ⟨(hg.positive k m hm).1.erase i, (hg.positive k m hm).2.erase i⟩
  agree u v := by
    rw [hg.above_removeNode, hg.below_removeNode]
    by_cases hv : v = i
    · by_cases hu : u = i
      · simp [hv, hu]
      · rw [if_pos hv, if_neg hu, count_filter_ne, if_pos hv, List.count_nil]
    · by_cases hu : u = i
      · rw [if_neg hv, if_pos hu, count_filter_ne, if_pos hu, List.count_nil]
      · rw [if_neg hv, if_neg hu, count_filter_ne, count_filter_ne, if_neg hu, if_neg hv,
          hg.agree]

theorem IdsBelow.removeNode (h : g.IdsBelow) (i : Nat) : (g.removeNode i).IdsBelow := by
  intro k hk
  rw [contains_removeNode, Bool.and_eq_true] at hk
  rw [nextId_removeNode]
  exact h k hk.1

/-! ## Severing -/

theorem node?_cut : (g.cut a b).node? j = (g.node? j).map fun n =>
    let n := if j = a then n.eraseChild b else n
    if j = b then n.eraseParent a else n := by
  simp only [cut, node?_updateNode]
  by_cases hb : j = b
  · subst hb
    by_cases ha : j = a
    · subst ha
      simp [Function.comp_def]
    · simp [ha]
  · by_cases ha : j = a
    · subst ha
      simp [hb]
    · simp [hb, ha]

@[simp] theorem contains_cut : (g.cut a b).contains j = g.contains j := by
  simp [cut]

theorem above_cut :
    (g.cut a b).above j = (g.above j).filter fun p => (p, j) != (a, b) := by
  rw [above, node?_cut]
  cases hn : g.node? j with
  | none => simp [above, hn]
  | some n =>
    rw [above_of_node? hn, Option.map_some, Option.elim_some]
    by_cases hb : j = b
    · subst hb
      have hset : (if j = a then n.eraseChild j else n).parents = n.parents := by
        split <;> rfl
      simp only [if_pos, Node.eraseParent, hset, Tally.spread_erase]
      apply List.filter_congr
      intro p _
      simp [bne]
    · have hset : (if j = a then n.eraseChild b else n).parents = n.parents := by
        split <;> rfl
      simp only [if_neg hb, hset]
      refine (List.filter_eq_self.2 ?_).symm
      intro p _
      simp [hb]

theorem below_cut :
    (g.cut a b).below j = (g.below j).filter fun c => (j, c) != (a, b) := by
  rw [below, node?_cut]
  cases hn : g.node? j with
  | none => simp [below, hn]
  | some n =>
    rw [below_of_node? hn, Option.map_some, Option.elim_some]
    have hset (m : Node α) : (if j = b then m.eraseParent a else m).children = m.children := by
      split <;> rfl
    simp only [hset]
    by_cases ha : j = a
    · subst ha
      simp only [if_pos, Node.eraseChild, Tally.spread_erase]
      apply List.filter_congr
      intro c _
      simp [bne]
    · simp only [if_neg ha]
      refine (List.filter_eq_self.2 ?_).symm
      intro c _
      simp [ha]

theorem label?_cut : (g.cut a b).label? j = g.label? j := by
  rw [label?, label?, node?_cut]
  cases g.node? j with
  | none => rfl
  | some n =>
    simp only [Option.map_some]
    split <;> split <;> rfl

theorem Coherent.cut (hg : g.Coherent) (a b : Nat) : (g.cut a b).Coherent where
  id_eq k n h := by
    rw [node?_cut] at h
    obtain ⟨m, hm, rfl⟩ := Option.map_eq_some_iff.1 h
    rw [← hg.id_eq k m hm]
    dsimp only
    split <;> split <;> rfl
  positive k n h := by
    rw [node?_cut] at h
    obtain ⟨m, hm, rfl⟩ := Option.map_eq_some_iff.1 h
    obtain ⟨hp, hc⟩ := hg.positive k m hm
    dsimp only
    split <;> split
    · exact ⟨hp.erase a, hc.erase b⟩
    · exact ⟨hp.erase a, hc⟩
    · exact ⟨hp, hc.erase b⟩
    · exact ⟨hp, hc⟩
  agree u v := by
    rw [above_cut, below_cut]
    by_cases h : (u, v) = (a, b)
    · rw [List.count_eq_zero.2, List.count_eq_zero.2] <;> simp [h]
    · rw [List.count_filter (by simpa using h), List.count_filter (by simpa using h), hg.agree]

/-- Under coherence severing two nodes that are not both there has nothing to do. -/
theorem Coherent.not_mem_of_sever (hg : g.Coherent)
    (h : ¬(g.contains a = true ∧ g.contains b = true)) : a ∉ g.above b ∧ b ∉ g.above a :=
  ⟨fun hab => h ⟨hg.contains_of_mem_above hab, Diagram.contains_of_mem_above hab⟩,
    fun hba => h ⟨Diagram.contains_of_mem_above hba, hg.contains_of_mem_above hba⟩⟩

theorem Coherent.above_sever (hg : g.Coherent) : (g.sever a b).above j =
    (g.above j).filter fun p => (p, j) != (a, b) && (p, j) != (b, a) := by
  unfold sever
  split
  · rw [above_cut, above_cut, List.filter_filter]
    exact List.filter_congr fun p _ => Bool.and_comm _ _
  · rename_i h
    obtain ⟨hab, hba⟩ := hg.not_mem_of_sever (a := a) (b := b) (by simpa using h)
    refine (List.filter_eq_self.2 ?_).symm
    intro p hp
    simp only [Bool.and_eq_true, bne_iff_ne, ne_eq, Prod.mk.injEq]
    constructor
    · rintro ⟨rfl, rfl⟩
      exact hab hp
    · rintro ⟨rfl, rfl⟩
      exact hba hp

theorem Coherent.below_sever (hg : g.Coherent) : (g.sever a b).below j =
    (g.below j).filter fun c => (j, c) != (a, b) && (j, c) != (b, a) := by
  unfold sever
  split
  · rw [below_cut, below_cut, List.filter_filter]
    exact List.filter_congr fun c _ => Bool.and_comm _ _
  · rename_i h
    obtain ⟨hab, hba⟩ := hg.not_mem_of_sever (a := a) (b := b) (by simpa using h)
    refine (List.filter_eq_self.2 ?_).symm
    intro c hc
    rw [← hg.mem_above_iff] at hc
    simp only [Bool.and_eq_true, bne_iff_ne, ne_eq, Prod.mk.injEq]
    constructor
    · rintro ⟨rfl, rfl⟩
      exact hab hc
    · rintro ⟨rfl, rfl⟩
      exact hba hc

@[simp] theorem label?_sever : (g.sever a b).label? j = g.label? j := by
  unfold sever
  split
  · rw [label?_cut, label?_cut]
  · rfl

@[simp] theorem contains_sever : (g.sever a b).contains j = g.contains j := by
  unfold sever
  split
  · rw [contains_cut, contains_cut]
  · rfl

@[simp] theorem inputs_sever : (g.sever a b).inputs = g.inputs := by
  unfold sever
  split <;> rfl

@[simp] theorem outputs_sever : (g.sever a b).outputs = g.outputs := by
  unfold sever
  split <;> rfl

@[simp] theorem nextId_sever : (g.sever a b).nextId = g.nextId := by
  unfold sever
  split <;> rfl

theorem Coherent.sever (hg : g.Coherent) (a b : Nat) : (g.sever a b).Coherent := by
  unfold Diagram.sever
  split
  · exact (hg.cut a b).cut b a
  · exact hg

end Wiring.Diagram
