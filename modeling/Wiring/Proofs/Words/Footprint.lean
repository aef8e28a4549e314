import Mathlib.Algebra.BigOperators.Group.Finset.Basic
import Mathlib.Algebra.Order.BigOperators.Group.Finset
import Wiring.Proofs.Words.Calls
import Wiring.Proofs.Words.Edits

/-!
# The footprint of a diagram

Two nodes that are merged get the sum of their degrees, so that room for more edges at every node is
no reserve for programs that merge. But merging leaves the number of all ends of edges as it is. The
footprint of a diagram counts them, and with them the ids that have been given out. It is not less
than any degree, nor than the degrees of two nodes together, and all that adds to it is new nodes
with their edges. So programs that label, attach and merge reckon within words if words hold a
capacity that the footprint stays below.

## Main definitions

- `Diagram.endsAt` — a node with the ends of edges at it
- `Diagram.footprint` — all ids with the ends of edges at their nodes
- `Diagram.HasLeft`, `Edit.Reserve.upTo` — what is left of a capacity

## Main statements

- `Diagram.footprint_attach`, `Diagram.footprint_merge` — new nodes, and merged ones
- `Diagram.HasLeft.held` — words that hold the capacity hold the diagram
- `Edit.costs_newNode`, `Edit.costs_newInput`, `Edit.costs_newOutput`, `Edit.costs_merge` — edits
-/

namespace Wiring

namespace Diagram

variable {α : Type} {g : Diagram α} {a b i j k m n capacity : Nat} {label : α} {ps cs : List Nat}

/-- The node `k`, and the ends of edges at it. -/
def endsAt (g : Diagram α) (k : Nat) : Nat := (g.above k).length + (g.below k).length + 1

/-- **The footprint of a diagram**: the ids that have been given out, and the ends of all edges. -/
def footprint (g : Diagram α) : Nat := ∑ k ∈ Finset.range g.nextId, g.endsAt k

theorem endsAt_of_not_contains (hk : g.contains k = false) : g.endsAt k = 1 := by
  rw [endsAt, above_eq_nil hk, below_eq_nil hk]
  rfl

theorem nextId_le_footprint (g : Diagram α) : g.nextId ≤ g.footprint :=
  calc g.nextId = ∑ _k ∈ Finset.range g.nextId, 1 := by
        rw [← Finset.card_eq_sum_ones, Finset.card_range]
    _ ≤ g.footprint := Finset.sum_le_sum fun _ _ => Nat.le_add_left _ _

/-- The footprint with two of its parts taken out. -/
theorem footprint_eq_add (hab : a ≠ b) (ha : a < g.nextId) (hb : b < g.nextId) :
    g.footprint = g.endsAt a + (g.endsAt b +
      ∑ k ∈ ((Finset.range g.nextId).erase a).erase b, g.endsAt k) := by
  have hb' : b ∈ (Finset.range g.nextId).erase a :=
    Finset.mem_erase.2 ⟨hab.symm, Finset.mem_range.2 hb⟩
  rw [footprint, Finset.add_sum_erase _ _ hb', Finset.add_sum_erase _ _ (Finset.mem_range.2 ha)]

theorem footprint_relabel (i : Nat) (label : α) :
    (g.relabel i label).footprint = g.footprint :=
  Finset.sum_congr rfl fun k _ => by rw [endsAt, endsAt, above_relabel, below_relabel]

section IdsBelow

variable (hids : g.IdsBelow)
include hids

theorem endsAt_le_footprint (k : Nat) : g.endsAt k ≤ g.footprint + 1 := by
  by_cases hk : k < g.nextId
  · exact Nat.le_succ_of_le
      (Finset.single_le_sum (fun _ _ => Nat.zero_le _) (Finset.mem_range.2 hk))
  · rw [endsAt_of_not_contains (hids.not_contains (Nat.le_of_not_lt hk))]
    exact Nat.le_add_left _ _

/-- The degrees of two nodes together are not above the footprint. -/
theorem endsAt_add_endsAt_le (hab : a ≠ b) : g.endsAt a + g.endsAt b ≤ g.footprint + 2 := by
  by_cases ha : a < g.nextId
  · by_cases hb : b < g.nextId
    · have := footprint_eq_add hab ha hb
      omega
    · have := endsAt_of_not_contains (hids.not_contains (Nat.le_of_not_lt hb))
      have := endsAt_le_footprint hids a
      omega
  · have := endsAt_of_not_contains (hids.not_contains (Nat.le_of_not_lt ha))
    have := endsAt_le_footprint hids b
    omega

end IdsBelow

section Unlimited

open scoped Unlimited

variable (hids : g.IdsBelow)
include hids

/-- **A new node** takes an id and the two ends of each of its edges. -/
theorem footprint_attach (h : g.Hosts ps cs) :
    (g.attach label ps cs).footprint = g.footprint + (2 * (ps.length + cs.length) + 1) := by
  have hps := fun p hp => (h.parent p hp).1
  have hcs := fun c hc => (h.child c hc).1
  have hcount {l : List Nat} (hl : ∀ k ∈ l, g.contains k = true) :
      ∑ k ∈ Finset.range g.nextId, l.count k = l.length := by
    simp only [← Multiset.coe_count, ← Multiset.coe_card]
    exact Multiset.sum_count_eq_card fun k hk =>
      Finset.mem_range.2 (hids k (hl k (Multiset.mem_coe.1 hk)))
  -- the sum runs over all ids that were issued, of which those without a node gain nothing, since
  -- the new node has its neighbours among nodes
  have hold : ∀ k ∈ Finset.range g.nextId,
      (g.attach label ps cs).endsAt k = g.endsAt k + (cs.count k + ps.count k) := by
    intro k hk
    have hne := Nat.ne_of_lt (Finset.mem_range.1 hk)
    cases hk : g.contains k with
    | true =>
      have habove := (above_attach label ps cs (hids.not_mem hcs) (.inr hk)).length_eq
      have hbelow := (below_attach label ps cs (hids.not_mem hps) (.inr hk)).length_eq
      rw [if_neg hne, List.length_append, List.length_replicate] at habove hbelow
      rw [endsAt, endsAt, habove, hbelow]
      omega
    | false =>
      have hnot : (g.attach label ps cs).contains k = false := by
        rw [contains_attach, hk, Bool.false_or, beq_eq_false_iff_ne]
        exact hne
      rw [endsAt_of_not_contains hnot, endsAt_of_not_contains hk, List.count_eq_zero.2,
        List.count_eq_zero.2]
      · exact fun hmem => Bool.false_ne_true (hk.symm.trans (hps k hmem))
      · exact fun hmem => Bool.false_ne_true (hk.symm.trans (hcs k hmem))
  have hself : (g.attach label ps cs).endsAt g.nextId = ps.length + cs.length + 1 := by
    have habove := (above_attach label ps cs (hids.not_mem hcs) (.inl rfl)).length_eq
    have hbelow := (below_attach label ps cs (hids.not_mem hps) (.inl rfl)).length_eq
    rw [if_pos rfl] at habove hbelow
    rw [endsAt, habove, hbelow]
  rw [footprint, nextId_attach, Finset.sum_range_succ, hself, Finset.sum_congr rfl hold,
    Finset.sum_add_distrib, Finset.sum_add_distrib, hcount hcs, hcount hps, footprint]
  omega

/-- **Merging** leaves the number of ids and of ends. -/
theorem footprint_merge (hg : g.Coherent) (hab : a ≠ b) (ha : g.contains a = true)
    (hb : g.contains b = true) : (g.merge a b).footprint = g.footprint := by
  have hnext : (g.merge a b).nextId = g.nextId := nextId_merge hab hb
  -- `b` leaves its id behind and gives its ends to `a`, and no other sum changes
  have hgone : (g.merge a b).endsAt b = 1 :=
    endsAt_of_not_contains (by rw [contains_merge hab hb, bne_self_eq_false, Bool.and_false])
  have hsum : (g.merge a b).endsAt a + 1 = g.endsAt a + g.endsAt b := by
    rw [endsAt, length_above_merge hg hab hb ha hab, length_below_merge hg hab hb ha hab,
      if_pos rfl, if_pos rfl, endsAt, endsAt]
    omega
  have hrest : ∀ k ∈ ((Finset.range g.nextId).erase a).erase b,
      (g.merge a b).endsAt k = g.endsAt k := by
    intro k hk
    obtain ⟨hkb, hk⟩ := Finset.mem_erase.1 hk
    obtain ⟨hka, -⟩ := Finset.mem_erase.1 hk
    cases hk : g.contains k with
    | true =>
      rw [endsAt, length_above_merge hg hab hb hk hkb, length_below_merge hg hab hb hk hkb,
        if_neg hka, if_neg hka, endsAt]
    | false =>
      rw [endsAt_of_not_contains hk, endsAt_of_not_contains]
      rw [contains_merge hab hb, hk, Bool.false_and]
  have hlt := hids a ha
  have hlt' := hids b hb
  rw [footprint_eq_add hab hlt hlt', footprint_eq_add hab (hnext ▸ hlt) (hnext ▸ hlt'), hnext,
    Finset.sum_congr rfl hrest, hgone, ← Nat.add_assoc, hsum, Nat.add_assoc]

end Unlimited

/-! ## Capacities -/

/-- **Of the capacity `n` is left**: so much more the footprint may grow. -/
structure HasLeft (capacity : Nat) (g : Diagram α) (n : Nat) : Prop where
  coherent : g.Coherent
  idsBelow : g.IdsBelow
  le : g.footprint + n ≤ capacity

/-- At the start all of it is left. -/
theorem hasLeft_empty (capacity : Nat) :
    HasLeft capacity (Diagram.empty : Diagram α) capacity where
  coherent := Orderly.empty.coherent
  idsBelow := Orderly.empty.idsBelow
  le := Nat.le_of_eq (Nat.zero_add capacity)

namespace HasLeft

variable (h : HasLeft capacity g n)
include h

theorem mono (hmn : m ≤ n) : HasLeft capacity g m :=
  ⟨h.coherent, h.idsBelow, (Nat.add_le_add_left hmn _).trans h.le⟩

theorem of_same_nodes {g' : Diagram α} (hnodes : g'.nodes = g.nodes)
    (hnext : g'.nextId = g.nextId) : HasLeft capacity g' n := by
  obtain ⟨hg, hids, hle⟩ := h
  cases g
  cases g'
  cases hnodes
  cases hnext
  exact ⟨⟨hg.id_eq, hg.positive, hg.agree⟩, hids, hle⟩

theorem relabel (i : Nat) (label : α) : HasLeft capacity (g.relabel i label) n :=
  ⟨h.coherent.relabel i label, h.idsBelow.relabel i label, by
    rw [footprint_relabel]
    exact h.le⟩

omit h in
theorem attach (h : HasLeft capacity g (2 * (ps.length + cs.length) + 1 + n))
    (hhosts : g.Hosts ps cs) :
    HasLeft capacity (letI _ := Unlimited.words; g.attach label ps cs) n where
  coherent := h.coherent.attach (h.idsBelow.not_contains (Nat.le_refl _))
    (fun p hp => (hhosts.parent p hp).1) fun c hc => (hhosts.child c hc).1
  idsBelow := h.idsBelow.attach
  le := by
    rw [footprint_attach h.idsBelow hhosts, Nat.add_assoc]
    exact h.le

theorem merge (hab : a ≠ b) (ha : g.contains a = true) (hb : g.contains b = true) :
    HasLeft capacity (letI _ := Unlimited.words; g.merge a b) n :=
  ⟨h.coherent.merge hab ha hb, h.idsBelow.merge hab hb, by
    rw [footprint_merge h.idsBelow h.coherent hab ha hb]
    exact h.le⟩

/-- **Words that hold the capacity hold the diagram.** -/
theorem held [Words] (hcapacity : Words.Holds capacity) : g.Held := by
  have hle := (Nat.le_add_right _ _).trans h.le
  refine ⟨hcapacity.mono ((nextId_le_footprint g).trans hle), fun k _ => ?_⟩
  have hk := endsAt_le_footprint h.idsBelow k
  rw [endsAt] at hk
  exact ⟨hcapacity.mono (by omega), hcapacity.mono (by omega)⟩

/-- Words that hold the capacity hold the degrees of two nodes together. -/
theorem holds_add [Words] (hcapacity : Words.Holds capacity) (hab : a ≠ b) :
    Words.Holds ((g.above a).length + (g.above b).length) ∧
      Words.Holds ((g.below a).length + (g.below b).length) := by
  have hle := (Nat.le_add_right _ _).trans h.le
  have hsum := endsAt_add_endsAt_le h.idsBelow hab
  rw [endsAt, endsAt] at hsum
  exact ⟨hcapacity.mono (by omega), hcapacity.mono (by omega)⟩

end HasLeft

end Diagram

/-! ## Edits -/

namespace Edit

open Diagram

variable {α β : Type} {capacity n : Nat}

/-- What is left of a capacity. -/
def Reserve.upTo (capacity : Nat) : Reserve α := ⟨HasLeft capacity, HasLeft.mono⟩

theorem costs_setLabel (i : Nat) (label : α) :
    Costs (.upTo capacity) (setLabel i label) (setLabel i label) 0 :=
  Costs.free fun _ m hg => leaves_ask_bind (HasLeft capacity · m) hg fun _ _ => hg.relabel i label

/-- A new node that is listed in some way afterwards leaves what it does not take. -/
theorem leaves_listed [Inhabited α] {question : Diagram α → Except Fault Unit}
    {push : Nat → Diagram α → Diagram α} {g : Diagram α} {ps cs : List Nat}
    (hg : HasLeft capacity g (2 * (ps.length + cs.length) + 1 + n))
    (hpush : ∀ i g, HasLeft capacity g n → HasLeft capacity (push i g) n) :
    HasLeft capacity (letI _ := Unlimited.words; ((do
      ask question
      let i ← addNode default ps cs
      change (push i)
      pure i : Edit α Nat).runOn g).2) n := by
  let _ := Unlimited.words
  have hleft := HasLeft.mono hg (Nat.le_add_left n _)
  exact leaves_ask_bind (HasLeft capacity · n) hleft fun _ _ =>
    leaves_addNode_bind (HasLeft capacity · n) hleft fun hhosts => hpush _ _ (hg.attach hhosts)

variable [Words] (hcapacity : Words.Holds capacity)
include hcapacity

/-- An edit that agrees with another one wherever words hold what that one leaves. -/
theorem costs_of_leaves {e e' : Edit α β}
    (hleaves : ∀ g m, HasLeft capacity g (n + m) → HasLeft capacity (e'.runOn g).2 m)
    (heq : ∀ g, g.Held → (e'.runOn g).2.Held → e.runOn g = e'.runOn g) :
    Costs (.upTo capacity) e e' n := by
  intro g m hg
  have hleft := hleaves g m hg
  have hrun := heq g (HasLeft.held hg hcapacity) (hleft.held hcapacity)
  exact ⟨hrun, hrun ▸ hleft⟩

/-- **A new node** takes an id and the two ends of each of its edges. -/
theorem costs_newNode (label : α) (ps cs : List Nat) :
    Costs (.upTo capacity) (addNode label ps cs) (letI _ := Unlimited.words; addNode label ps cs)
      (2 * (ps.length + cs.length) + 1) :=
  costs_of_leaves hcapacity
    (fun _ m hg => @leaves_addNode _ _ _ _ _ Unlimited.words (HasLeft capacity · m)
      (hg.mono (Nat.le_add_left _ _)) hg.attach)
    fun _ _ hheld => runOn_addNode_eq hheld

section Terminals

variable [Inhabited α]

/-- A new input is a new node with one edge. -/
theorem costs_newInput (i : Nat) : Costs (.upTo capacity) (addInputAt i : Edit α Nat)
    (letI _ := Unlimited.words; addInputAt i) 3 :=
  costs_of_leaves hcapacity
    (fun _ _ hg => leaves_listed hg fun _ _ hg => hg.of_same_nodes rfl rfl)
    fun _ hg hheld => runOn_addInputAt_eq hg.degrees hheld

theorem costs_newOutput (i : Nat) : Costs (.upTo capacity) (addOutputAt i : Edit α Nat)
    (letI _ := Unlimited.words; addOutputAt i) 3 :=
  costs_of_leaves hcapacity
    (fun _ _ hg => leaves_listed hg fun _ _ hg => hg.of_same_nodes rfl rfl)
    fun _ hg hheld => runOn_addOutputAt_eq hg.degrees hheld

end Terminals

/-- **Merging** is free. -/
theorem costs_merge (a b : Nat) : Costs (.upTo capacity) (merge a b : Edit α Unit)
    (letI _ := Unlimited.words; merge a b) 0 := by
  intro g m hg
  have hleft := HasLeft.mono hg (Nat.le_add_left m 0)
  have hrun : (merge a b).runOn g = letI := Unlimited.words; (merge a b).runOn g := by
    by_cases hab : a = b
    · rw [hab, runOn_merge_self]
    · exact runOn_merge_eq (hleft.held hcapacity).degrees (hleft.holds_add hcapacity hab)
        hleft.coherent hab
  refine ⟨hrun, ?_⟩
  rw [hrun]
  let _ := Unlimited.words
  refine leaves_ask_bind (HasLeft capacity · m) hleft fun _ hcheck => ?_
  show HasLeft capacity (g.merge a b) m
  by_cases hab : a = b
  · rwa [Diagram.merge, if_pos hab]
  · obtain ⟨ha, hb, -⟩ := (checkMerge_eq_ok_iff hab).1 hcheck
    exact hleft.merge hab ha hb

end Edit

end Wiring
