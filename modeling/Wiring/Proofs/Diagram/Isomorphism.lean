import Mathlib.Algebra.Order.Group.Nat
import Mathlib.Algebra.Order.BigOperators.Group.List
import Mathlib.Data.Set.Function
import Wiring.Proofs.Diagram.Arrow
import Wiring.Proofs.Diagram.Copies

/-!
# Isomorphic diagrams

Diagrams that differ in their ids alone are isomorphic: the ids of the nodes correspond one to one,
and corresponding nodes have the same label and as many edges from and to corresponding nodes. The
terminals correspond in their order. Nothing is said of the next ids.

## Main definitions

- `Diagram.Renames` — a one to one correspondence of ids that keeps everything else
- `Diagram.Isomorphic` — there is one

## Main statements

- `Diagram.Isomorphic.refl`, `Diagram.Isomorphic.symm`, `Diagram.Isomorphic.trans`
- `Diagram.renames_of_above` — it is enough to look at the parents
- `Diagram.renames_of_edges` — or to count the edges
- `Diagram.Renames.isArrow` — arrows are isomorphic to arrows only
- `Diagram.IsArrow.exists_apart` — among isomorphic arrows some use other ids
-/

namespace Wiring.Diagram

open scoped Unlimited

variable {α : Type} {f g h u : Diagram α} {φ ψ : Nat → Nat} {d i k : Nat}

/-- **A renaming of `g` to `h`**: a one to one correspondence of ids that keeps labels, the number
    of parallel edges between any two nodes, as either of them tells it, and the lists of
    terminals. -/
structure Renames (φ : Nat → Nat) (g h : Diagram α) : Prop where
  bijOn : Set.BijOn φ {k | g.contains k = true} {k | h.contains k = true}
  label : ∀ k, g.contains k = true → h.label? (φ k) = g.label? k
  above : ∀ k, g.contains k = true → (h.above (φ k)).Perm ((g.above k).map φ)
  below : ∀ k, g.contains k = true → (h.below (φ k)).Perm ((g.below k).map φ)
  inputs : h.inputs = g.inputs.map φ
  outputs : h.outputs = g.outputs.map φ

/-- **Diagrams that differ in their ids alone.** -/
def Isomorphic (g h : Diagram α) : Prop := ∃ φ, Renames φ g h

/-! ## Renamings -/

/-- Where ids correspond one to one, an id is listed as often as before. -/
theorem count_map_of_injOn {s : Set Nat} (hφ : Set.InjOn φ s) (hk : k ∈ s) {l : List Nat}
    (hl : ∀ j ∈ l, j ∈ s) : (l.map φ).count (φ k) = l.count k := by
  rw [List.count, List.countP_map, List.count]
  refine List.countP_congr fun j hj => ?_
  rw [Function.comp_apply, beq_iff_eq, beq_iff_eq]
  exact ⟨fun heq => hφ (hl j hj) hk heq, fun heq => heq ▸ rfl⟩

namespace Renames

variable (hr : Renames φ g h)
include hr

theorem contains (hk : g.contains k = true) : h.contains (φ k) = true := hr.bijOn.mapsTo hk

theorem injOn : Set.InjOn φ {k | g.contains k = true} := hr.bijOn.injOn

theorem exists_eq (hi : h.contains i = true) : ∃ k, g.contains k = true ∧ φ k = i :=
  hr.bijOn.surjOn hi

/-- Among the nodes of `g` only `k` itself is found under the new id of `k`. -/
theorem mem_map (hk : g.contains k = true) {l : List Nat} (hl : ∀ j ∈ l, g.contains j = true) :
    φ k ∈ l.map φ ↔ k ∈ l := by
  constructor
  · intro hmem
    obtain ⟨j, hj, heq⟩ := List.mem_map.1 hmem
    exact hr.injOn (hl j hj) hk heq ▸ hj
  · exact List.mem_map_of_mem

theorem isArrow (hg : g.IsArrow) (hh : h.Coherent) : h.IsArrow := by
  refine isArrow_iff.2 ⟨hh, ?_, ?_, fun i hi => ?_, fun o ho => ?_⟩
  · rw [hr.inputs]
    exact hg.nodup_inputs.map_on fun i hi j hj heq =>
      hr.injOn (hg.contains_of_mem_inputs i hi) (hg.contains_of_mem_inputs j hj) heq
  · rw [hr.outputs]
    exact hg.nodup_outputs.map_on fun i hi j hj heq =>
      hr.injOn (hg.contains_of_mem_outputs i hi) (hg.contains_of_mem_outputs j hj) heq
  · rw [hr.inputs] at hi
    obtain ⟨k, hk, rfl⟩ := List.mem_map.1 hi
    obtain ⟨hc, habove, hbelow⟩ := hg.input hk
    have hperm := hr.above k hc
    rw [habove, List.map_nil, List.perm_nil] at hperm
    exact ⟨hr.contains hc, hperm, by rw [(hr.below k hc).length_eq, List.length_map, hbelow]⟩
  · rw [hr.outputs] at ho
    obtain ⟨k, hk, rfl⟩ := List.mem_map.1 ho
    obtain ⟨hc, hbelow, habove⟩ := hg.output hk
    have hperm := hr.below k hc
    rw [hbelow, List.map_nil, List.perm_nil] at hperm
    exact ⟨hr.contains hc, hperm, by rw [(hr.above k hc).length_eq, List.length_map, habove]⟩

end Renames

/-- If the ends of all edges agree then the parents tell the children. -/
theorem renames_of_above (hg : g.Coherent) (hh : h.Coherent)
    (hbij : Set.BijOn φ {k | g.contains k = true} {k | h.contains k = true})
    (hlabel : ∀ k, g.contains k = true → h.label? (φ k) = g.label? k)
    (habove : ∀ k, g.contains k = true → (h.above (φ k)).Perm ((g.above k).map φ))
    (hin : h.inputs = g.inputs.map φ) (hout : h.outputs = g.outputs.map φ) : Renames φ g h := by
  refine ⟨hbij, hlabel, habove, fun k hk => List.perm_iff_count.2 fun j => ?_, hin, hout⟩
  have hbelow : ∀ c ∈ g.below k, g.contains c = true := fun c hc => hg.contains_of_mem_below hc
  by_cases hj : h.contains j = true
  · obtain ⟨i, hi, rfl⟩ := hbij.surjOn hj
    rw [← hh.agree, (habove i hi).count_eq,
      count_map_of_injOn hbij.injOn hk fun p hp => hg.contains_of_mem_above hp, hg.agree,
      count_map_of_injOn hbij.injOn hi hbelow]
  · rw [List.count_eq_zero.2 fun hmem => hj (hh.contains_of_mem_below hmem),
      List.count_eq_zero.2 fun hmem => hj ?_]
    obtain ⟨c, hc, rfl⟩ := List.mem_map.1 hmem
    exact hbij.mapsTo (hbelow c hc)

/-- It is enough to compare how many edges there are between any two nodes. -/
theorem renames_of_edges (hg : g.Coherent) (hh : h.Coherent)
    (hbij : Set.BijOn φ {k | g.contains k = true} {k | h.contains k = true})
    (hlabel : ∀ k, g.contains k = true → h.label? (φ k) = g.label? k)
    (hedges : ∀ u v, g.contains u = true → g.contains v = true →
      h.edges (φ u) (φ v) = g.edges u v)
    (hin : h.inputs = g.inputs.map φ) (hout : h.outputs = g.outputs.map φ) : Renames φ g h := by
  refine renames_of_above hg hh hbij hlabel (fun v hv => List.perm_iff_count.2 fun j => ?_) hin hout
  have habove : ∀ p ∈ g.above v, g.contains p = true := fun p hp => hg.contains_of_mem_above hp
  by_cases hj : h.contains j = true
  · obtain ⟨u, hu, rfl⟩ := hbij.surjOn hj
    rw [count_map_of_injOn hbij.injOn hu habove, ← hh.edges_eq_above, hedges u v hu hv,
      hg.edges_eq_above]
  · rw [List.count_eq_zero.2 fun hmem => hj (hh.contains_of_mem_above hmem),
      List.count_eq_zero.2 fun hmem => hj ?_]
    obtain ⟨p, hp, rfl⟩ := List.mem_map.1 hmem
    exact hbij.mapsTo (habove p hp)

/-- Diagrams with the same ids are compared as they are. -/
theorem renames_id (hg : g.Coherent) (hh : h.Coherent)
    (hcontains : ∀ k, h.contains k = true ↔ g.contains k = true)
    (hlabel : ∀ k, g.contains k = true → h.label? k = g.label? k)
    (habove : ∀ k, g.contains k = true → (h.above k).Perm (g.above k))
    (hin : h.inputs = g.inputs) (hout : h.outputs = g.outputs) : Renames id g h := by
  refine renames_of_above hg hh ?_ hlabel (fun k hk => ?_) ?_ ?_
  · have hsame : {k | h.contains k = true} = {k | g.contains k = true} :=
      Set.ext fun k => hcontains k
    rw [hsame]
    exact Set.bijOn_id _
  · rw [List.map_id]
    exact habove k hk
  · rw [List.map_id, hin]
  · rw [List.map_id, hout]

theorem isomorphic_of_same_ids (hg : g.Coherent) (hh : h.Coherent)
    (hcontains : ∀ k, h.contains k = true ↔ g.contains k = true)
    (hlabel : ∀ k, g.contains k = true → h.label? k = g.label? k)
    (habove : ∀ k, g.contains k = true → (h.above k).Perm (g.above k))
    (hin : h.inputs = g.inputs) (hout : h.outputs = g.outputs) : Isomorphic g h :=
  ⟨id, renames_id hg hh hcontains hlabel habove hin hout⟩

/-- The next id makes no difference. -/
theorem Coherent.renames_raised (hg : g.Coherent) (n : Nat) : Renames id { g with nextId := n } g :=
  renames_id ⟨hg.id_eq, hg.positive, hg.agree⟩ hg (fun _ => Iff.rfl) (fun _ _ => rfl)
    (fun _ _ => .refl _) rfl rfl

theorem Renames.trans (hgh : Renames φ g h) (hhu : Renames ψ h u) : Renames (ψ ∘ φ) g u where
  bijOn := hhu.bijOn.comp hgh.bijOn
  label k hk := (hhu.label _ (hgh.contains hk)).trans (hgh.label k hk)
  above k hk := by
    rw [← List.map_map]
    exact (hhu.above _ (hgh.contains hk)).trans ((hgh.above k hk).map ψ)
  below k hk := by
    rw [← List.map_map]
    exact (hhu.below _ (hgh.contains hk)).trans ((hgh.below k hk).map ψ)
  inputs := by rw [hhu.inputs, hgh.inputs, List.map_map]
  outputs := by rw [hhu.outputs, hgh.outputs, List.map_map]

/-- The correspondence read from the other side. -/
theorem Renames.symm (hr : Renames φ g h) (hg : g.IsArrow) :
    Renames (Function.invFunOn φ {k | g.contains k = true}) h g := by
  have hinv := hr.bijOn.invOn_invFunOn
  set ψ := Function.invFunOn φ {k | g.contains k = true}
  have hback {l l' : List Nat} (hl' : ∀ j ∈ l', g.contains j = true) (hperm : l.Perm (l'.map φ)) :
      l'.Perm (l.map ψ) := by
    have hsame : (l'.map φ).map ψ = l' := by
      rw [List.map_map]
      exact (List.map_congr_left fun j hj => hinv.1 (hl' j hj)).trans (List.map_id l')
    exact (List.Perm.of_eq hsame).symm.trans (hperm.map ψ).symm
  have hlist {l l' : List Nat} (hl' : ∀ j ∈ l', g.contains j = true) (heq : l = l'.map φ) :
      l' = l.map ψ := by
    rw [heq, List.map_map]
    exact ((List.map_congr_left fun j hj => hinv.1 (hl' j hj)).trans (List.map_id l')).symm
  refine ⟨hinv.symm.bijOn (fun j hj => ?_) hr.bijOn.mapsTo, fun j hj => ?_, fun j hj => ?_,
    fun j hj => ?_, hlist hg.contains_of_mem_inputs hr.inputs,
    hlist hg.contains_of_mem_outputs hr.outputs⟩
  · obtain ⟨k, hk, rfl⟩ := hr.exists_eq hj
    show g.contains (ψ (φ k)) = true
    rw [hinv.1 hk]
    exact hk
  · obtain ⟨k, hk, rfl⟩ := hr.exists_eq hj
    rw [hinv.1 hk, hr.label k hk]
  · obtain ⟨k, hk, rfl⟩ := hr.exists_eq hj
    rw [hinv.1 hk]
    exact hback (fun p hp => hg.coherent.contains_of_mem_above hp) (hr.above k hk)
  · obtain ⟨k, hk, rfl⟩ := hr.exists_eq hj
    rw [hinv.1 hk]
    exact hback (fun c hc => hg.coherent.contains_of_mem_below hc) (hr.below k hk)

/-- A diagram whose ids are raised is a renamed one. -/
theorem renames_shift (hg : g.Coherent) (d : Nat) : Renames (· + d) g (g.shift d) where
  bijOn := by
    refine ⟨fun k hk => ?_, fun i _ j _ heq => Nat.add_right_cancel heq, fun j hj => ?_⟩
    · exact (contains_shift hg.id_eq).trans hk
    · obtain ⟨k, rfl, hk⟩ := exists_of_contains_shift hg.id_eq hj
      exact ⟨k, hk, rfl⟩
  label _ _ := label?_shift hg.id_eq
  above _ _ := .of_eq (above_shift hg.id_eq)
  below _ _ := .of_eq (below_shift hg.id_eq)
  inputs := inputs_shift
  outputs := outputs_shift

/-! ## Isomorphisms -/

namespace Isomorphic

theorem refl (hg : g.Coherent) : Isomorphic g g :=
  isomorphic_of_same_ids hg hg (fun _ => Iff.rfl) (fun _ _ => rfl) (fun _ _ => .refl _) rfl rfl

theorem trans (hgh : Isomorphic g h) (hhu : Isomorphic h u) : Isomorphic g u := by
  obtain ⟨φ, hφ⟩ := hgh
  obtain ⟨ψ, hψ⟩ := hhu
  exact ⟨ψ ∘ φ, hφ.trans hψ⟩

theorem symm (hgh : Isomorphic g h) (hg : g.IsArrow) : Isomorphic h g := by
  obtain ⟨φ, hφ⟩ := hgh
  exact ⟨_, hφ.symm hg⟩

theorem source_eq (hgh : Isomorphic g h) : h.source = g.source := by
  obtain ⟨φ, hφ⟩ := hgh
  rw [source, hφ.inputs, List.length_map, source]

theorem target_eq (hgh : Isomorphic g h) : h.target = g.target := by
  obtain ⟨φ, hφ⟩ := hgh
  rw [target, hφ.outputs, List.length_map, target]

end Isomorphic

/-- There is always a next id. -/
theorem exists_bound (ids : List Nat) : ∃ n, ∀ k ∈ ids, k < n :=
  ⟨ids.sum + 1, fun _ hk => Nat.lt_succ_of_le (List.le_sum_of_mem hk)⟩

namespace IsArrow

variable (hg : g.IsArrow)
include hg

theorem isomorphic_apartFrom (h : Diagram α) : Isomorphic g (g.apartFrom h) :=
  ⟨_, renames_shift hg.coherent _⟩

theorem shift (d : Nat) : (g.shift d).IsArrow :=
  (renames_shift hg.coherent d).isArrow hg (hg.coherent.shift d)

/-- Among the diagrams isomorphic to an arrow there is one that uses none of the listed ids. -/
theorem exists_apart (ids : List Nat) : ∃ g', Isomorphic g g' ∧ g'.IsArrow ∧
    ∀ k ∈ ids, g'.contains k = false := by
  obtain ⟨n, hn⟩ := exists_bound ids
  refine ⟨g.shift n, ⟨_, renames_shift hg.coherent n⟩, hg.shift n, fun k hk => ?_⟩
  rw [← Bool.not_eq_true]
  intro hc
  obtain ⟨j, rfl, -⟩ := exists_of_contains_shift hg.coherent.id_eq hc
  have hlt := hn _ hk
  omega

end IsArrow

/-! ## Correspondences put together -/

/-- The correspondence that is `φ` on the ids of `f` and `ψ` on all others. -/
def either (f : Diagram α) (φ ψ : Nat → Nat) (k : Nat) : Nat :=
  if f.contains k = true then φ k else ψ k

theorem either_left (hk : f.contains k = true) : f.either φ ψ k = φ k := if_pos hk

theorem either_right (hk : f.contains k = false) : f.either φ ψ k = ψ k :=
  if_neg (by rw [hk]; exact Bool.false_ne_true)

theorem map_either_left {l : List Nat} (hl : ∀ k ∈ l, f.contains k = true) :
    l.map (f.either φ ψ) = l.map φ :=
  List.map_congr_left fun k hk => either_left (hl k hk)

theorem map_either_right {l : List Nat} (hl : ∀ k ∈ l, f.contains k = false) :
    l.map (f.either φ ψ) = l.map ψ :=
  List.map_congr_left fun k hk => either_right (hl k hk)

theorem bijOn_either {A A' B B' : Set Nat} (hφ : Set.BijOn φ A A') (hψ : Set.BijOn ψ B B')
    (hA : ∀ k ∈ A, f.contains k = true) (hB : ∀ k ∈ B, f.contains k = false)
    (hapart : ∀ k ∈ A', k ∉ B') : Set.BijOn (f.either φ ψ) (A ∪ B) (A' ∪ B') := by
  have hleft : Set.BijOn (f.either φ ψ) A A' := hφ.congr fun k hk => (either_left (hA k hk)).symm
  have hright : Set.BijOn (f.either φ ψ) B B' := hψ.congr fun k hk => (either_right (hB k hk)).symm
  refine hleft.union hright ?_
  rintro i (hi | hi) j (hj | hj) heq
  · exact hleft.injOn hi hj heq
  · exact absurd (hright.mapsTo hj) (hapart _ (heq ▸ hleft.mapsTo hi))
  · exact absurd (hright.mapsTo hi) (hapart _ (heq.symm ▸ hleft.mapsTo hj))
  · exact hright.injOn hi hj heq

end Wiring.Diagram
