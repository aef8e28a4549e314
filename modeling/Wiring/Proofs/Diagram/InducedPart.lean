import Wiring.Proofs.Diagram.Mutations

/-!
# Removed nodes leave the part that the others induce

Nodes are removed one after the other, and each is forgotten by those that it counts among its own
neighbours. In a coherent diagram nobody else counts it, and what is left is coherent again, so that
the same can be said of the next. After all of them have gone the diagram is what it would be if
they had been left out at once. That does not depend on their order.

## Main definitions

- `Node.without`, `Diagram.without` — the listed nodes left out at once
- `Diagram.InducedPart` — what the nodes that are not listed keep

## Main statements

- `Diagram.Coherent.removeNode_eq_without` — one node is removed as it would be left out
- `Diagram.Coherent.removeNodes_eq_without` — and so are many
- `Diagram.without_without`, `Diagram.without_congr` — nodes left out in turn, and in another order
- `Diagram.Coherent.removal_induces_part` — what is left, whatever the order
-/

namespace Wiring

open scoped Unlimited

/-! ## Keys left out of a map -/

namespace IdMap

variable {β : Type} {m : IdMap β} {k : Nat} {ks ls : List Nat}

/-- The entries under other keys than the listed ones. -/
def eraseAll (m : IdMap β) (ks : List Nat) : IdMap β := m.filter fun k _ => !ks.contains k

theorem get?_eraseAll : (m.eraseAll ks).get? k = if k ∈ ks then none else m.get? k := by
  rw [eraseAll, get?_filter]
  by_cases hk : k ∈ ks <;> cases m.get? k <;> simp [hk]

theorem eraseAll_nil (m : IdMap β) : m.eraseAll [] = m := by
  ext1 k
  rw [get?_eraseAll, if_neg List.not_mem_nil]

theorem eraseAll_singleton (m : IdMap β) (k : Nat) : m.eraseAll [k] = m.erase k := by
  ext1 j
  rw [get?_eraseAll, get?_erase]
  simp only [List.mem_singleton]

theorem eraseAll_eraseAll (m : IdMap β) (ks ls : List Nat) :
    (m.eraseAll ks).eraseAll ls = m.eraseAll (ks ++ ls) := by
  ext1 k
  simp only [get?_eraseAll, List.mem_append]
  by_cases hl : k ∈ ls <;> by_cases hk : k ∈ ks <;> simp [hl, hk]

theorem eraseAll_congr (m : IdMap β) (h : ∀ k, k ∈ ks ↔ k ∈ ls) :
    m.eraseAll ks = m.eraseAll ls := by
  ext1 k
  simp only [get?_eraseAll, h]

end IdMap

/-! ## Nodes left out of a diagram -/

namespace Node

variable {α : Type} {ids others : List Nat}

/-- The node without the edges that join it to listed nodes. -/
def without (n : Node α) (ids : List Nat) : Node α :=
  { n with parents := n.parents.eraseAll ids, children := n.children.eraseAll ids }

theorem without_nil (n : Node α) : n.without [] = n := by
  rw [without, IdMap.eraseAll_nil, IdMap.eraseAll_nil]

theorem without_singleton (n : Node α) (i : Nat) :
    n.without [i] = (n.eraseChild i).eraseParent i := by
  rw [without, IdMap.eraseAll_singleton, IdMap.eraseAll_singleton, eraseParent, eraseChild]

theorem without_without (n : Node α) (ids others : List Nat) :
    (n.without ids).without others = n.without (ids ++ others) := by
  simp only [without, IdMap.eraseAll_eraseAll]

theorem without_congr (n : Node α) (h : ∀ k, k ∈ ids ↔ k ∈ others) :
    n.without ids = n.without others := by
  rw [without, without, IdMap.eraseAll_congr _ h, IdMap.eraseAll_congr _ h]

end Node

namespace Diagram

variable {α : Type} {g : Diagram α} {i k u v : Nat} {ids others terminals : List Nat}

/-- The terminals that stay when the listed nodes go. Terminals that are no nodes do not go. -/
def terminalsWithout (g : Diagram α) (ids terminals : List Nat) : List Nat :=
  terminals.filter fun i => !(g.contains i && ids.contains i)

/-- **The diagram with the listed nodes left out**, all at once. -/
def without (g : Diagram α) (ids : List Nat) : Diagram α where
  nodes := (g.nodes.eraseAll ids).map fun _ n => n.without ids
  inputs := g.terminalsWithout ids g.inputs
  outputs := g.terminalsWithout ids g.outputs
  nextId := g.nextId

theorem node?_without : (g.without ids).node? k =
    if k ∈ ids then none else (g.node? k).map (·.without ids) := by
  change ((g.nodes.eraseAll ids).map fun _ n => n.without ids).get? k = _
  rw [IdMap.get?_map, IdMap.get?_eraseAll]
  split <;> rfl

theorem contains_without : (g.without ids).contains k = (g.contains k && !ids.contains k) := by
  rw [contains_eq_isSome, node?_without, contains_eq_isSome]
  by_cases hk : k ∈ ids <;> simp [hk]

theorem mem_terminalsWithout :
    i ∈ g.terminalsWithout ids terminals ↔ i ∈ terminals ∧ ¬(g.contains i = true ∧ i ∈ ids) := by
  rw [terminalsWithout, List.mem_filter, Bool.not_eq_true', ← Bool.not_eq_true, Bool.and_eq_true,
    List.contains_iff_mem]

theorem terminalsWithout_terminalsWithout (g : Diagram α) (ids others terminals : List Nat) :
    (g.without ids).terminalsWithout others (g.terminalsWithout ids terminals) =
      g.terminalsWithout (ids ++ others) terminals := by
  rw [terminalsWithout, terminalsWithout, terminalsWithout, List.filter_filter]
  refine List.filter_congr fun i _ => ?_
  rw [contains_without]
  by_cases hids : i ∈ ids <;> by_cases hothers : i ∈ others <;> simp [hids, hothers]

theorem terminalsWithout_congr (g : Diagram α) (hsame : ∀ k, k ∈ ids ↔ k ∈ others) :
    g.terminalsWithout ids = g.terminalsWithout others := by
  funext terminals
  refine List.filter_congr fun i _ => ?_
  rw [List.contains_eq_mem, List.contains_eq_mem, decide_eq_decide.2 (hsame i)]

theorem without_nil (g : Diagram α) : g.without [] = g := by
  refine ext_of_node? (fun k => ?_) ?_ ?_ rfl
  · rw [node?_without, if_neg List.not_mem_nil, funext Node.without_nil, Option.map_id']
  all_goals exact List.filter_eq_self.2 fun i _ => by simp

/-- Nodes are left out in turn. -/
theorem without_without (g : Diagram α) (ids others : List Nat) :
    (g.without ids).without others = g.without (ids ++ others) := by
  refine ext_of_node? (fun k => ?_) ?_ ?_ rfl
  · simp only [node?_without, List.mem_append]
    by_cases hothers : k ∈ others
    · simp only [hothers, or_true, if_true]
    · by_cases hids : k ∈ ids
      · simp only [hids, true_or, if_true, Option.map_none, ite_self]
      · simp only [hids, hothers, or_self, if_false, Option.map_map, Function.comp_def,
          Node.without_without]
  · exact terminalsWithout_terminalsWithout g ids others g.inputs
  · exact terminalsWithout_terminalsWithout g ids others g.outputs

/-- It does not matter in which order or how often an id is listed. -/
theorem without_congr (g : Diagram α) (hsame : ∀ k, k ∈ ids ↔ k ∈ others) :
    g.without ids = g.without others := by
  refine ext_of_node? (fun k => ?_) ?_ ?_ rfl
  · have hnode : (fun n : Node α => n.without ids) = (·.without others) :=
      funext fun n => n.without_congr hsame
    simp only [node?_without, hsame, hnode]
  · exact congrFun (g.terminalsWithout_congr hsame) g.inputs
  · exact congrFun (g.terminalsWithout_congr hsame) g.outputs

/-! ## Removing is leaving out -/

/-- **One node is removed as it would be left out**: those that it counts among its neighbours are
    all that count it. -/
theorem Coherent.removeNode_eq_without (hg : g.Coherent) (i : Nat) :
    g.removeNode i = g.without [i] := by
  have hterminals (terminals : List Nat) :
      (if g.contains i = true then terminals.filter (· != i) else terminals) =
        g.terminalsWithout [i] terminals := by
    split
    · rename_i hi
      refine List.filter_congr fun j _ => ?_
      by_cases hj : j = i <;> simp [hj, hi]
    · rename_i hi
      refine (List.filter_eq_self.2 fun j _ => ?_).symm
      by_cases hj : j = i <;> simp [hj, hi]
  refine ext_of_node? (fun k => ?_) ?_ ?_ nextId_removeNode
  · simp only [hg.node?_removeNode, node?_without, List.mem_singleton, Node.without_singleton]
  · exact inputs_removeNode_eq.trans (hterminals g.inputs)
  · exact outputs_removeNode_eq.trans (hterminals g.outputs)

/-- **Nodes that are removed one by one are left out at once.** What is left of a coherent diagram
    is coherent, and this carries the argument from one node to the next. -/
theorem Coherent.removeNodes_eq_without (hg : g.Coherent) (ids : List Nat) :
    g.removeNodes ids = g.without ids := by
  induction ids generalizing g with
  | nil => exact g.without_nil.symm
  | cons i ids ih =>
    rw [removeNodes_cons, ih (hg.removeNode i), hg.removeNode_eq_without, without_without]
    rfl

/-! ## The induced part -/

/-- **`h` is the part of `g` that is induced by the nodes not listed.** They keep their labels, the
    edges among them are counted as before at both ends, and no entry for a listed node is left at
    any of them. Terminals keep their order, and lose the nodes that have gone. -/
structure InducedPart (g : Diagram α) (ids : List Nat) (h : Diagram α) : Prop where
  coherent : h.Coherent
  contains_iff : ∀ k, h.contains k = true ↔ g.contains k = true ∧ k ∉ ids
  label?_eq : ∀ k, k ∉ ids → h.label? k = g.label? k
  childEntry_eq : ∀ u v, u ∉ ids → v ∉ ids → h.childEntry u v = g.childEntry u v
  parentEntry_eq : ∀ u v, u ∉ ids → v ∉ ids → h.parentEntry u v = g.parentEntry u v
  childEntry_none : ∀ u, ∀ v ∈ ids, h.childEntry u v = none
  parentEntry_none : ∀ u, ∀ v ∈ ids, h.parentEntry u v = none
  inputs_eq : h.inputs = g.terminalsWithout ids g.inputs
  outputs_eq : h.outputs = g.terminalsWithout ids g.outputs
  nextId_eq : h.nextId = g.nextId

theorem childEntry_without : (g.without ids).childEntry u v =
    if u ∈ ids ∨ v ∈ ids then none else g.childEntry u v := by
  rw [childEntry, node?_without, childEntry]
  by_cases hu : u ∈ ids
  · simp [hu]
  · cases g.node? u <;> simp [hu, Node.without, IdMap.get?_eraseAll]

theorem parentEntry_without : (g.without ids).parentEntry u v =
    if u ∈ ids ∨ v ∈ ids then none else g.parentEntry u v := by
  rw [parentEntry, node?_without, parentEntry]
  by_cases hu : u ∈ ids
  · simp [hu]
  · cases g.node? u <;> simp [hu, Node.without, IdMap.get?_eraseAll]

theorem Coherent.inducedPart (hg : g.Coherent) (ids : List Nat) :
    g.InducedPart ids (g.removeNodes ids) := by
  have hcoherent := hg.removeNodes ids
  rw [hg.removeNodes_eq_without] at hcoherent ⊢
  refine ⟨hcoherent, fun k => ?_, fun k hk => ?_, fun u v hu hv => ?_, fun u v hu hv => ?_,
    fun u v hv => ?_, fun u v hv => ?_, rfl, rfl, rfl⟩
  · simp [contains_without]
  · rw [label?, node?_without, if_neg hk, Option.map_map, label?]
    rfl
  · rw [childEntry_without, if_neg (not_or.2 ⟨hu, hv⟩)]
  · rw [parentEntry_without, if_neg (not_or.2 ⟨hu, hv⟩)]
  · rw [childEntry_without, if_pos (.inr hv)]
  · rw [parentEntry_without, if_pos (.inr hv)]

/-- **Removing nodes leaves the part that the others induce**, whatever ids are listed: a node may
    be listed twice, and an id without a node is passed over. So no terminal is a node that has
    gone, the same ids listed in another way leave the same diagram, and so do two lists one after
    the other, whichever is first. -/
theorem Coherent.removal_induces_part (hg : g.Coherent) (ids : List Nat) :
    g.InducedPart ids (g.removeNodes ids) ∧
      (∀ i ∈ ids, g.contains i = true →
        i ∉ (g.removeNodes ids).inputs ∧ i ∉ (g.removeNodes ids).outputs) ∧
      (∀ others, (∀ k, k ∈ others ↔ k ∈ ids) → g.removeNodes others = g.removeNodes ids) ∧
      ∀ others both, (∀ k, k ∈ both ↔ k ∈ ids ∨ k ∈ others) →
        (g.removeNodes ids).removeNodes others = g.removeNodes both ∧
          (g.removeNodes others).removeNodes ids = g.removeNodes both := by
  have hpart := hg.inducedPart ids
  -- removing in turn is leaving out in turn, and that is leaving out all ids of both lists
  have hturn (ids others : List Nat) :
      (g.removeNodes ids).removeNodes others = g.without (ids ++ others) := by
    rw [(hg.removeNodes ids).removeNodes_eq_without, hg.removeNodes_eq_without, without_without]
  refine ⟨hpart, fun i hi hc => ?_, fun others hsame => ?_, fun others both hboth => ⟨?_, ?_⟩⟩
  · rw [hpart.inputs_eq, hpart.outputs_eq, mem_terminalsWithout, mem_terminalsWithout]
    exact ⟨fun h => h.2 ⟨hc, hi⟩, fun h => h.2 ⟨hc, hi⟩⟩
  · rw [hg.removeNodes_eq_without, hg.removeNodes_eq_without, without_congr g hsame]
  · rw [hturn, hg.removeNodes_eq_without]
    exact without_congr g fun k => by rw [List.mem_append, hboth]
  · rw [hturn, hg.removeNodes_eq_without]
    exact without_congr g fun k => by rw [List.mem_append, hboth, or_comm]

/-- A node with a loop and parallel edges to both others goes, listed twice along with an id that is
    an input but no node. -/
theorem removal_induces_part_looped :
    let rows := [[0, 2, 1], [1, 1, 3], [0, 2, 0]]
    let g : Diagram Nat := ((discrete 3).joinRows 0 rows).setInputs [1, 7, 2]
    let h := g.removeNodes [1, 7, 1]
    g.Coherent ∧ g.InducedPart [1, 7, 1] h ∧ h.ids = [0, 2] ∧ h.inputs = [7, 2] ∧ h.nextId = 3 ∧
      h.childEntry 0 2 = some 1 ∧ h.parentEntry 2 1 = none ∧ g.removeNodes [7, 1] = h ∧
      (g.removeNodes [2, 7]).removeNodes [1, 7, 1] = h.removeNodes [2, 7] := by
  intro rows g h
  have hrows : ofAdjacency rows = .ok ((discrete 3 : Diagram Nat).joinRows 0 rows) := rfl
  have hg : g.Coherent :=
    let h := (Orderly.ofAdjacency hrows).coherent
    ⟨h.id_eq, h.positive, h.agree⟩
  obtain ⟨hpart, -, hsame, hturn⟩ := hg.removal_induces_part [1, 7, 1]
  have hlists (k : Nat) : k ∈ [7, 1] ↔ k ∈ [1, 7, 1] := by
    simp only [List.mem_cons, List.not_mem_nil, or_false]
    omega
  have hboth (k : Nat) : k ∈ [1, 2, 7] ↔ k ∈ [1, 7, 1] ∨ k ∈ [2, 7] := by
    simp only [List.mem_cons, List.not_mem_nil, or_false]
    omega
  obtain ⟨hfirst, hlast⟩ := hturn [2, 7] [1, 2, 7] hboth
  refine ⟨hg, hpart, by decide +kernel, hpart.inputs_eq.trans (by decide +kernel), hpart.nextId_eq,
    ?_, hpart.parentEntry_none 2 1 (by decide), hsame [7, 1] hlists,
    hlast.trans hfirst.symm⟩
  rw [hpart.childEntry_eq 0 2 (by decide) (by decide)]
  decide +kernel

end Diagram

end Wiring
