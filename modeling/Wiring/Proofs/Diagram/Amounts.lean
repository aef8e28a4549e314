import Mathlib.Algebra.BigOperators.Group.Finset.Basic
import Mathlib.Algebra.BigOperators.Ring.List
import Mathlib.Algebra.Order.BigOperators.Group.Finset
import Mathlib.Algebra.Ring.Nat
import Wiring.Proofs.Words.Room

/-!
# Amounts that nodes come to

A quantity may be given by the label of a node and the number of edges out of it. What it comes to
over a whole diagram is compared node by node, and so is known after every basic change, whether
the diagram is coherent or not, and also where counts and ids wrap around.

## Main definitions

- `Diagram.amount`, `Diagram.totalAmount` — what a quantity comes to at a node, and altogether

## Main statements

- `Diagram.totalAmount_add_le` — comparison of two diagrams that differ in some nodes
- `Diagram.totalAmount_removeNodes`, `Diagram.totalAmount_relabel`,
  `Diagram.totalAmount_sever_le`, `Diagram.totalAmount_attach` — the basic changes
-/

namespace Wiring

theorem Tally.count_add_le [Words] (t : Tally) (k m j : Nat) :
    (t.add k m).count j ≤ t.count j + if j = k then m else 0 := by
  unfold add
  split
  · exact Nat.le_add_right _ _
  · rw [count, IdMap.get?_alter]
    by_cases hj : j = k
    · rw [if_pos hj, if_pos hj, hj]
      exact Words.wrap_le _
    · rw [if_neg hj, if_neg hj]
      exact Nat.le_refl _

/-- Counting `m` more edges makes at most so many more. -/
theorem Tally.length_spread_add_le [Words] (t : Tally) (k m : Nat) :
    (t.add k m).spread.length ≤ t.spread.length + m := by
  have hsub : (t.add k m).spread.Subperm (t.spread ++ List.replicate m k) := by
    refine List.subperm_ext_iff.2 fun j _ => ?_
    rw [List.count_append, List.count_replicate, count_spread, count_spread]
    refine (count_add_le t k m j).trans (Nat.add_le_add_left ?_ _)
    by_cases hj : j = k
    · simp [hj]
    · simp [hj]
  simpa using hsub.length_le

theorem Tally.total_le [Words] (t : Tally) : t.total ≤ t.spread.length := by
  rw [length_spread]
  unfold total
  generalize t.values = l
  induction l with
  | nil => exact Nat.le_refl 0
  | cons m l ih =>
    rw [List.foldr_cons, List.foldr_cons, Words.wrap_unlimited]
    exact (Words.wrap_le _).trans (Nat.add_le_add_left ih m)

namespace Diagram

variable {α : Type} {g h : Diagram α} {F : α → Nat → Nat} {k : Nat} {label : α}

/-! ## Edges out of a node -/

theorem length_below_join_le [Words] (g : Diagram α) (s t m k : Nat) :
    ((g.join s t m).below k).length ≤ (g.below k).length + if k = s then m else 0 := by
  rw [below, below, node?_join]
  cases g.node? k with
  | none => exact Nat.zero_le _
  | some n =>
    have hset (n : Node α) : (if k = t then n.addParent s m else n).children = n.children := by
      split <;> rfl
    simp only [Option.map_some, Option.elim_some, hset]
    by_cases hk : k = s
    · rw [if_pos hk, if_pos hk]
      exact Tally.length_spread_add_le n.children t m
    · rw [if_neg hk, if_neg hk]
      exact Nat.le_refl _

theorem length_below_joinAll_le [Words] (g : Diagram α) (es : List (Nat × Nat)) (k : Nat) :
    ((g.joinAll es).below k).length ≤ (g.below k).length + (es.map (·.1)).count k := by
  induction es generalizing g with
  | nil => exact Nat.le_refl _
  | cons e es ih =>
    refine (ih (g.join e.1 e.2 1)).trans ?_
    have hle := length_below_join_le g e.1 e.2 1 k
    rw [List.map_cons, List.count_cons]
    by_cases hk : k = e.1
    · rw [if_pos hk] at hle
      rw [if_pos (beq_iff_eq.2 hk.symm)]
      omega
    · rw [if_neg hk] at hle
      omega

/-- Only the parents of a new node get more children. -/
theorem length_below_attach_le [Words] (g : Diagram α) (label : α) (ps cs : List Nat) (k : Nat) :
    ((g.attach label ps cs).below k).length ≤
      (if k = g.nextId then cs.length else (g.below k).length) + ps.count k := by
  have hnew : (({ g with
      nodes := g.nodes.insert g.nextId (.isolated g.nextId label)
      nextId := Words.wrap (g.nextId + 1) } : Diagram α).below k).length =
        if k = g.nextId then 0 else (g.below k).length := by
    show (((g.nodes.insert g.nextId (.isolated g.nextId label)).get? k).elim []
      (·.children.spread)).length = _
    rw [IdMap.get?_insert]
    split <;> rfl
  have hcs : ((cs.map (g.nextId, ·)).map (·.1)).count k =
      if k = g.nextId then cs.length else 0 := by
    rw [List.map_map, show (fun e : Nat × Nat => e.1) ∘ (g.nextId, ·) = fun _ => g.nextId from rfl,
      List.map_const', List.count_replicate]
    by_cases hk : k = g.nextId
    · simp [hk]
    · simp [hk, Ne.symm hk]
  have hps : ((ps.map (·, g.nextId)).map (·.1)).count k = ps.count k := by
    rw [List.map_map]
    exact congrArg (List.count k) (List.map_id ps)
  unfold attach
  refine (length_below_joinAll_le _ _ k).trans ?_
  refine (Nat.add_le_add_right (length_below_joinAll_le _ _ k) _).trans ?_
  rw [hnew, hcs, hps]
  split <;> omega

/-! ## Amounts -/

/-- What the quantity `F` comes to at the node `k`, if there is one: it is given by the label and
    the number of edges out. -/
def amount (F : α → Nat → Nat) (g : Diagram α) (k : Nat) : Nat :=
  (g.label? k).elim 0 fun label => F label (g.below k).length

/-- **What the quantity comes to at all nodes together.** -/
def totalAmount (F : α → Nat → Nat) (g : Diagram α) : Nat := ∑ k ∈ g.ids.toFinset, g.amount F k

theorem sumOf_eq_sum (g : Diagram α) (f : Node α → Nat) :
    g.sumOf f = (g.nodes.values.map f).sum := by
  unfold sumOf
  induction g.nodes.values with
  | nil => rfl
  | cons n l ih => rw [List.foldr_cons, List.map_cons, List.sum_cons, ih]

theorem sumOf_eq_totalAmount (g : Diagram α) (F : α → Nat → Nat) :
    g.sumOf (fun n => F n.label n.children.spread.length) = g.totalAmount F := by
  rw [sumOf_eq_sum, totalAmount, ids, List.sum_toFinset _ g.nodes.nodup_keys, IdMap.keys,
    IdMap.values, List.map_map, List.map_map]
  refine congrArg List.sum (List.map_congr_left fun e he => ?_)
  have hn : g.node? e.1 = some e.2 := IdMap.mem_entries_iff.1 he
  rw [Function.comp_apply, Function.comp_apply, amount, label?, hn, below_of_node? hn]
  rfl

theorem size_eq_totalAmount (g : Diagram α) : g.size = g.totalAmount fun _ _ => 1 := by
  rw [← sumOf_eq_totalAmount, sumOf_eq_sum, List.map_const', List.sum_replicate_nat, Nat.mul_one,
    IdMap.values, List.length_map]
  rfl

theorem amount_of_label? (hlabel : g.label? k = some label) :
    g.amount F k = F label (g.below k).length := by
  rw [amount, hlabel]
  rfl

theorem amount_eq_zero (hk : g.contains k = false) : g.amount F k = 0 := by
  have hnone : g.label? k = none := by
    rw [Option.eq_none_iff_forall_ne_some]
    intro label hlabel
    rw [contains_iff_label?.2 ⟨label, hlabel⟩] at hk
    cases hk
  rw [amount, hnone]
  rfl

/-- A node that keeps its label and gets no more children does not come to more. -/
theorem amount_mono (hF : ∀ label, Monotone (F label)) (hlabel : h.label? k = g.label? k)
    (hlen : (h.below k).length ≤ (g.below k).length) : h.amount F k ≤ g.amount F k := by
  rw [amount, amount, hlabel]
  cases g.label? k with
  | none => exact Nat.le_refl 0
  | some label => exact hF label hlen

theorem totalAmount_eq_sum {S : Finset Nat} (hS : g.ids.toFinset ⊆ S) :
    g.totalAmount F = ∑ k ∈ S, g.amount F k :=
  Finset.sum_subset hS fun k _ hk => amount_eq_zero (by
    rwa [List.mem_toFinset, mem_ids, Bool.not_eq_true] at hk)

/-- **Two diagrams are compared** by the nodes in `S`, if no other node comes to more. -/
theorem totalAmount_add_le (S : Finset Nat) (hle : ∀ k ∉ S, h.amount F k ≤ g.amount F k) :
    h.totalAmount F + ∑ k ∈ S, g.amount F k ≤ g.totalAmount F + ∑ k ∈ S, h.amount F k := by
  have hS : S ⊆ S ∪ (g.ids.toFinset ∪ h.ids.toFinset) := Finset.subset_union_left
  have hg : g.ids.toFinset ⊆ S ∪ (g.ids.toFinset ∪ h.ids.toFinset) :=
    Finset.subset_union_left.trans Finset.subset_union_right
  have hh : h.ids.toFinset ⊆ S ∪ (g.ids.toFinset ∪ h.ids.toFinset) :=
    Finset.subset_union_right.trans Finset.subset_union_right
  have hrest := Finset.sum_le_sum
    fun k (hk : k ∈ (S ∪ (g.ids.toFinset ∪ h.ids.toFinset)) \ S) => hle k (Finset.mem_sdiff.1 hk).2
  rw [totalAmount_eq_sum hg, totalAmount_eq_sum hh, ← Finset.sum_sdiff hS, ← Finset.sum_sdiff hS]
  omega

theorem totalAmount_le (hle : ∀ k, h.amount F k ≤ g.amount F k) :
    h.totalAmount F ≤ g.totalAmount F := by
  simpa using totalAmount_add_le ∅ fun k _ => hle k

/-! ## Changes -/

variable (hF : ∀ label, Monotone (F label))
include hF

theorem amount_removeNode_le (g : Diagram α) (i k : Nat) :
    (g.removeNode i).amount F k ≤ g.amount F k := by
  by_cases hk : k = i
  · rw [hk, amount_eq_zero]
    · exact Nat.zero_le _
    · rw [contains_removeNode, bne_self_eq_false, Bool.and_false]
  · refine amount_mono hF ?_ (length_removeNode_le g i k).2
    rw [label?_removeNode, if_neg hk]

theorem amount_removeNodes_le (g : Diagram α) (ids : List Nat) (k : Nat) :
    (g.removeNodes ids).amount F k ≤ g.amount F k := by
  induction ids generalizing g with
  | nil => exact Nat.le_refl _
  | cons i ids ih => exact (ih (g.removeNode i)).trans (amount_removeNode_le hF g i k)

/-- **Removing nodes** takes away what they come to. -/
theorem totalAmount_removeNodes (g : Diagram α) (ids : List Nat) :
    (g.removeNodes ids).totalAmount F + ∑ k ∈ ids.toFinset, g.amount F k ≤ g.totalAmount F := by
  have hgone (k : Nat) (hk : k ∈ ids.toFinset) : (g.removeNodes ids).amount F k = 0 := by
    apply amount_eq_zero
    rw [List.mem_toFinset] at hk
    simp [contains_removeNodes, hk]
  have hle := totalAmount_add_le ids.toFinset fun k _ => amount_removeNodes_le hF g ids k
  rwa [Finset.sum_eq_zero hgone, Nat.add_zero] at hle

omit hF in
theorem size_removeNodes_lt {ids : List Nat} (hk : k ∈ ids) (hc : g.contains k = true) :
    (g.removeNodes ids).size < g.size := by
  obtain ⟨label, hlabel⟩ := contains_iff_label?.1 hc
  have hle := totalAmount_removeNodes (F := fun _ _ => 1) (fun _ _ _ _ => Nat.le_refl 1) g ids
  have hone := Finset.single_le_sum (f := g.amount fun _ _ => 1) (fun _ _ => Nat.zero_le _)
    (List.mem_toFinset.2 hk)
  rw [amount_of_label? hlabel] at hone
  rw [size_eq_totalAmount, size_eq_totalAmount]
  omega

omit hF in
/-- **A new label** makes a difference at its node only. -/
theorem totalAmount_relabel (g : Diagram α) (i : Nat) (label : α) :
    (g.relabel i label).totalAmount F + g.amount F i ≤
      g.totalAmount F + (g.relabel i label).amount F i := by
  have hle := totalAmount_add_le {i} fun k (hk : k ∉ ({i} : Finset Nat)) =>
    show (g.relabel i label).amount F k ≤ g.amount F k by
      rw [Finset.mem_singleton] at hk
      rw [amount, amount, label?_relabel, if_neg hk, below_relabel]
  simpa using hle

theorem amount_cut_le (g : Diagram α) (a b k : Nat) : (g.cut a b).amount F k ≤ g.amount F k := by
  refine amount_mono hF label?_cut ?_
  rw [below_cut]
  exact List.length_filter_le _ _

theorem totalAmount_sever_le (g : Diagram α) (a b : Nat) :
    (g.sever a b).totalAmount F ≤ g.totalAmount F := by
  refine totalAmount_le fun k => ?_
  unfold sever
  split
  · exact (amount_cut_le hF _ b a k).trans (amount_cut_le hF g a b k)
  · exact Nat.le_refl _

/-- **A new node** comes on top, in the place of what had its id, if its parents do not come to
    more. -/
theorem totalAmount_attach [Words] (g : Diagram α) (label : α) (ps cs : List Nat)
    (hps : ∀ p ∈ ps, p ≠ g.nextId → (g.attach label ps cs).amount F p ≤ g.amount F p) :
    (g.attach label ps cs).totalAmount F + g.amount F g.nextId ≤
      g.totalAmount F + (g.attach label ps cs).amount F g.nextId := by
  have hle := totalAmount_add_le {g.nextId} fun k (hk : k ∉ ({g.nextId} : Finset Nat)) =>
    show (g.attach label ps cs).amount F k ≤ g.amount F k by
      rw [Finset.mem_singleton] at hk
      by_cases hmem : k ∈ ps
      · exact hps k hmem hk
      · refine amount_mono hF ?_ ?_
        · rw [label?_attach, if_neg hk]
        · have hlen := length_below_attach_le g label ps cs k
          rwa [if_neg hk, List.count_eq_zero.2 hmem] at hlen
  simpa using hle

end Diagram

end Wiring
