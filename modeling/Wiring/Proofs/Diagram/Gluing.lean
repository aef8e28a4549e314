import Mathlib.Algebra.Ring.Nat
import Wiring.Diagram.Compose
import Wiring.Proofs.Diagram.Copies
import Wiring.Proofs.Diagram.EditRuns
import Wiring.Proofs.Diagram.Uniting

/-!
# Glued diagrams

What gluing leaves of two diagrams. The first keeps its lists of neighbours, except that an output
among the children of a node is replaced by the input that is glued to it; so a node has as many
edges out as before. The second keeps its lists too, except that its inputs get one parent each.

## Main definitions

- `Diagram.weld` — gluing of diagrams that share no id
- `Diagram.Welds` — what is asked of them

## Main statements

- `Diagram.feeders_eq_ok` — the nodes that feed the outputs
- `Diagram.Welds.above_left`, `Diagram.Welds.above_right`, `Diagram.Welds.below_right` — the lists
  of the two sides
- `Diagram.Welds.length_below_left` — the number of edges out of a node of the first diagram
- `Diagram.Welds.acyclic` — gluing makes no cycle
-/

namespace Wiring.Diagram

open scoped Unlimited

variable {α : Type} {f g : Diagram α} {ps ids : List Nat} {i j k p : Nat}

theorem feeder_eq_ok {o : Nat} (hpos : f.Positive) (h : f.above o = [p]) : f.feeder o = .ok p := by
  obtain ⟨n, hn⟩ := contains_iff.1 (contains_of_mem_above (h ▸ List.mem_singleton_self p))
  have hsingle : n.parents.single? = some p := by
    rwa [(hpos o n hn).1.single?_eq_some_iff, ← above_of_node? hn]
  rw [feeder, find_eq_ok_iff.2 hn]
  dsimp only [bind, Except.bind]
  rw [hsingle]

/-- The nodes that feed the outputs, if every output has a single parent. -/
theorem feeders_eq_ok (hpos : f.Positive) (hout : ∀ o ∈ f.outputs, (f.above o).length = 1) :
    ∃ ps, f.feeders = .ok ps ∧ f.outputs.map f.above = ps.map ([·]) := by
  have hsole : ∀ o ∈ f.outputs, f.above o = [(f.above o).headD 0] := by
    intro o ho
    obtain ⟨p, hp⟩ := List.length_eq_one_iff.1 (hout o ho)
    rw [hp]
    rfl
  refine ⟨f.outputs.map fun o => (f.above o).headD 0, mapM_eq_ok ?_, ?_⟩
  · exact fun o ho => feeder_eq_ok hpos (hsole o ho)
  · rw [List.map_map]
    exact List.map_congr_left hsole

/-- The nodes of both diagrams, with the inputs of the first. -/
def unite (f g : Diagram α) : Diagram α where
  nodes := f.nodes.union g.nodes
  inputs := f.inputs
  outputs := []
  nextId := max f.nextId g.nextId

/-- Glues `g` after `f`, whose ids are apart already. -/
def weld (f : Diagram α) (ps : List Nat) (g : Diagram α) : Diagram α :=
  { ((f.unite g).removeNodes f.outputs).joinAll (ps.zip g.inputs) with outputs := g.outputs }

theorem glue_eq (f : Diagram α) (ps : List Nat) (g : Diagram α) :
    f.glue ps g = f.weld ps (g.apartFrom f) := rfl

theorem nextId_weld : (f.weld ps g).nextId = max f.nextId g.nextId := by
  show (((f.unite g).removeNodes f.outputs).joinAll _).nextId = _
  rw [nextId_joinAll, nextId_removeNodes]
  rfl

/-- **Diagrams that fit together**: they share no id, the outputs of `f` are fed by `ps`, one for
    each input of `g`, and terminals have edges on one side only. -/
structure Welds (f : Diagram α) (ps : List Nat) (g : Diagram α) : Prop where
  left : f.Coherent
  right : g.Coherent
  apart : ∀ k, f.contains k = true → g.contains k = false
  inputs_left : ∀ i ∈ f.inputs, f.above i = []
  inputs_right : ∀ i ∈ g.inputs, g.contains i = true ∧ g.above i = []
  outputs_left : ∀ o ∈ f.outputs, f.below o = []
  nodup_inputs : g.inputs.Nodup
  nodup_outputs : f.outputs.Nodup
  feed : f.outputs.map f.above = ps.map ([·])
  length_eq : ps.length = g.inputs.length

/-! ## Counting -/

/-- A list has as many elements among `ids` as it has occurrences of these. -/
theorem length_filter_contains (l : List Nat) (hnodup : ids.Nodup) :
    (l.filter (ids.contains ·)).length = (ids.map fun i => l.count i).sum := by
  induction ids with
  | nil => simp
  | cons i ids ih =>
    obtain ⟨hi, hids⟩ := List.nodup_cons.1 hnodup
    have hsplit (l : List Nat) : (l.filter ((i :: ids).contains ·)).length =
        l.count i + (l.filter (ids.contains ·)).length := by
      simp only [List.contains_eq_mem, List.mem_cons, Bool.decide_or]
      induction l with
      | nil => rfl
      | cons x l ih =>
        by_cases hx : x = i
        · have hmem : x ∉ ids := hx ▸ hi
          simp [hx ▸ hmem, hx, ih]
          omega
        · by_cases hmem : x ∈ ids
          · simp [hx, hmem, ih]
            omega
          · simp [hx, hmem, ih]
    rw [hsplit, ih hids, List.map_cons, List.sum_cons]

/-- The edges of a list that leave `k` are as many as `k` has occurrences among the sources. -/
theorem length_filter_zip {is : List Nat} (hlen : ps.length = is.length) :
    ((ps.zip is).filter (·.1 == k)).length = ps.count k := by
  calc ((ps.zip is).filter (·.1 == k)).length = (ps.zip is).countP (·.1 == k) :=
        List.countP_eq_length_filter.symm
    _ = ((ps.zip is).map (·.1)).countP (· == k) := by
        rw [List.countP_map]
        rfl
    _ = ps.count k := by rw [List.map_fst_zip (Nat.le_of_eq hlen), List.count]

theorem sum_count_singleton (l : List Nat) (k : Nat) :
    (l.map fun i => [i].count k).sum = l.count k := by
  induction l with
  | nil => rfl
  | cons i l ih => rw [List.map_cons, List.sum_cons, ih, ← List.count_append, List.singleton_append]

/-- If all targets differ then the edges of a list that lead to one of them are a single edge. -/
theorem map_filter_zip {is : List Nat} (hnodup : is.Nodup) (hmem : (p, i) ∈ ps.zip is) :
    ((ps.zip is).filter (·.2 == i)).map (·.1) = [p] := by
  induction ps generalizing is with
  | nil => cases hmem
  | cons q ps ih =>
    cases is with
    | nil => cases hmem
    | cons j is =>
      obtain ⟨hj, his⟩ := List.nodup_cons.1 hnodup
      rw [List.zip_cons_cons, List.mem_cons, Prod.mk.injEq] at hmem
      rcases hmem with ⟨rfl, rfl⟩ | hmem
      · have hrest : (ps.zip is).filter (·.2 == i) = [] := by
          rw [List.filter_eq_nil_iff]
          intro e he
          have := (List.of_mem_zip he).2
          simpa using fun heq : e.2 = i => hj (heq ▸ this)
        simp [hrest]
      · have hne : j ≠ i := fun heq => hj (heq ▸ (List.of_mem_zip hmem).2)
        simp [hne, ih his hmem]

namespace Welds

variable (hw : Welds f ps g)
include hw

/-! ## The two sides -/

theorem unites : Unites f g (f.unite g) := ⟨rfl, hw.apart⟩

theorem contains_output (hk : k ∈ f.outputs) : f.contains k = true := by
  have hmem : f.above k ∈ ps.map ([·]) := hw.feed ▸ List.mem_map_of_mem hk
  obtain ⟨p, -, hp⟩ := List.mem_map.1 hmem
  exact contains_of_mem_above (hp ▸ List.mem_singleton_self p)

theorem contains_feeder (hp : p ∈ ps) : f.contains p = true ∧ p ∉ f.outputs := by
  have hmem : [p] ∈ f.outputs.map f.above := hw.feed ▸ List.mem_map_of_mem hp
  obtain ⟨o, -, ho⟩ := List.mem_map.1 hmem
  have hpo : p ∈ f.above o := ho ▸ List.mem_singleton_self p
  refine ⟨hw.left.contains_of_mem_above hpo, ?_⟩
  intro hout
  rw [hw.left.mem_above_iff, hw.outputs_left p hout] at hpo
  cases hpo

theorem exists_feeder (hi : i ∈ g.inputs) : ∃ p, (p, i) ∈ ps.zip g.inputs := by
  rw [← List.map_snd_zip (Nat.le_of_eq hw.length_eq.symm)] at hi
  obtain ⟨e, he, rfl⟩ := List.mem_map.1 hi
  exact ⟨e.1, he⟩

theorem not_mem_outputs (hk : g.contains k = true) : k ∉ f.outputs := fun ho => by
  rw [hw.apart k (hw.contains_output ho)] at hk
  cases hk

theorem contains_weld : (f.weld ps g).contains k = true ↔
    (f.contains k = true ∧ k ∉ f.outputs) ∨ g.contains k = true := by
  show (((f.unite g).removeNodes f.outputs).joinAll _).contains k = true ↔ _
  rw [contains_joinAll, contains_removeNodes, Bool.and_eq_true, hw.unites.contains_iff]
  have := hw.not_mem_outputs (k := k)
  simp only [Bool.not_eq_true', List.contains_eq_mem, decide_eq_false_iff_not]
  tauto

theorem label?_weld_left (hk : f.contains k = true) (hout : k ∉ f.outputs) :
    (f.weld ps g).label? k = f.label? k := by
  show (((f.unite g).removeNodes f.outputs).joinAll _).label? k = _
  rw [label?_joinAll, label?_removeNodes, if_neg hout, hw.unites.label?_left hk]

theorem label?_weld_right (hk : g.contains k = true) : (f.weld ps g).label? k = g.label? k := by
  show (((f.unite g).removeNodes f.outputs).joinAll _).label? k = _
  rw [label?_joinAll, label?_removeNodes, if_neg (hw.not_mem_outputs hk),
    hw.unites.symm.label?_left hk]

theorem inputs_weld : (f.weld ps g).inputs = f.inputs := by
  show (((f.unite g).removeNodes f.outputs).joinAll _).inputs = _
  rw [inputs_joinAll, inputs_removeNodes]
  · rfl
  · intro o ho hi
    have hmem : f.above o ∈ ps.map ([·]) := hw.feed ▸ List.mem_map_of_mem ho
    obtain ⟨p, -, hp⟩ := List.mem_map.1 hmem
    rw [hw.inputs_left o hi] at hp
    cases hp

/-! ## Neighbour lists -/

/-- Outputs of the first diagram are nobody's parents. -/
theorem above_weld (hk : (f.weld ps g).contains k = true) : ((f.weld ps g).above k).Perm
    (f.above k ++ g.above k ++ ((ps.zip g.inputs).filter (·.2 == k)).map (·.1)) := by
  have hout : k ∉ f.outputs := by
    rcases hw.contains_weld.1 hk with hk | hk
    · exact hk.2
    · exact hw.not_mem_outputs hk
  have hself : (f.above k ++ g.above k).filter (!f.outputs.contains ·) =
      f.above k ++ g.above k := by
    rw [List.filter_eq_self]
    intro p hp
    suffices p ∉ f.outputs by simpa using this
    rcases List.mem_append.1 hp with hp | hp
    · intro ho
      rw [hw.left.mem_above_iff, hw.outputs_left p ho] at hp
      cases hp
    · exact hw.not_mem_outputs (hw.right.contains_of_mem_above hp)
  have hjoin := above_joinAll (g := (f.unite g).removeNodes f.outputs) (ps.zip g.inputs) (j := k)
    (by rwa [← contains_joinAll (ps.zip g.inputs)])
  rwa [(hw.unites.coherent hw.left hw.right).above_removeNodes, if_neg hout,
    hw.unites.above_eq, hself] at hjoin

theorem below_weld (hk : (f.weld ps g).contains k = true) : ((f.weld ps g).below k).Perm
    ((f.below k ++ g.below k).filter (!f.outputs.contains ·) ++
      ((ps.zip g.inputs).filter (·.1 == k)).map (·.2)) := by
  have hout : k ∉ f.outputs := by
    rcases hw.contains_weld.1 hk with hk | hk
    · exact hk.2
    · exact hw.not_mem_outputs hk
  have hjoin := below_joinAll (g := (f.unite g).removeNodes f.outputs) (ps.zip g.inputs) (j := k)
    (by rwa [← contains_joinAll (ps.zip g.inputs)])
  rwa [(hw.unites.coherent hw.left hw.right).below_removeNodes, if_neg hout,
    hw.unites.below_eq] at hjoin

theorem above_left (hk : f.contains k = true) (hout : k ∉ f.outputs) :
    ((f.weld ps g).above k).Perm (f.above k) := by
  have hperm := hw.above_weld (hw.contains_weld.2 (.inl ⟨hk, hout⟩))
  have hnone : (ps.zip g.inputs).filter (·.2 == k) = [] := by
    rw [List.filter_eq_nil_iff]
    intro e he
    have := (hw.inputs_right _ (List.of_mem_zip he).2).1
    rw [beq_iff_eq]
    rintro rfl
    rw [hw.apart _ hk] at this
    cases this
  rwa [above_eq_nil (hw.apart k hk), hnone, List.append_nil, List.map_nil, List.append_nil]
    at hperm

theorem above_right (hk : g.contains k = true) (hin : k ∉ g.inputs) :
    ((f.weld ps g).above k).Perm (g.above k) := by
  have hperm := hw.above_weld (hw.contains_weld.2 (.inr hk))
  have hnone : (ps.zip g.inputs).filter (·.2 == k) = [] := by
    rw [List.filter_eq_nil_iff]
    intro e he
    rw [beq_iff_eq]
    rintro rfl
    exact hin (List.of_mem_zip he).2
  rwa [above_eq_nil (hw.unites.apart_right k hk), hnone, List.nil_append, List.map_nil,
    List.append_nil] at hperm

/-- An input of the second diagram gets the parent of the output that it is glued to. -/
theorem above_input (hmem : (p, i) ∈ ps.zip g.inputs) : (f.weld ps g).above i = [p] := by
  obtain ⟨hi, hnil⟩ := hw.inputs_right i (List.of_mem_zip hmem).2
  have hperm := hw.above_weld (hw.contains_weld.2 (.inr hi))
  rwa [above_eq_nil (hw.unites.apart_right i hi), hnil, map_filter_zip hw.nodup_inputs hmem,
    List.append_nil, List.nil_append, List.perm_singleton] at hperm

theorem below_right (hk : g.contains k = true) : ((f.weld ps g).below k).Perm (g.below k) := by
  have hperm := hw.below_weld (hw.contains_weld.2 (.inr hk))
  have hself : (g.below k).filter (!f.outputs.contains ·) = g.below k := by
    rw [List.filter_eq_self]
    intro c hc
    simpa using hw.not_mem_outputs (hw.right.contains_of_mem_below hc)
  have hnone : (ps.zip g.inputs).filter (·.1 == k) = [] := by
    rw [List.filter_eq_nil_iff]
    intro e he
    have := (hw.contains_feeder (List.of_mem_zip he).1).1
    rw [beq_iff_eq]
    rintro rfl
    rw [hw.apart _ this] at hk
    cases hk
  rwa [below_eq_nil (hw.unites.apart_right k hk), List.nil_append, hself, hnone, List.map_nil,
    List.append_nil] at hperm

/-- Every edge to an output has become an edge to an input. -/
theorem length_below_left (hk : f.contains k = true) (hout : k ∉ f.outputs) :
    ((f.weld ps g).below k).length = (f.below k).length := by
  have hlen := (hw.below_weld (hw.contains_weld.2 (.inl ⟨hk, hout⟩))).length_eq
  -- `k` feeds as many outputs as it is listed for, and loses just these children
  have hlost : ((f.below k).filter (f.outputs.contains ·)).length = ps.count k :=
    calc ((f.below k).filter (f.outputs.contains ·)).length
        = (f.outputs.map fun o => (f.below k).count o).sum :=
          length_filter_contains _ hw.nodup_outputs
      _ = ((f.outputs.map f.above).map fun l => l.count k).sum := by
          simp only [List.map_map, Function.comp_def, hw.left.agree]
      _ = (ps.map fun p => [p].count k).sum := by
          rw [hw.feed, List.map_map]
          rfl
      _ = ps.count k := sum_count_singleton ps k
  rw [below_eq_nil (hw.apart k hk), List.append_nil, List.length_append, List.length_map,
    length_filter_zip hw.length_eq, ← hlost] at hlen
  have hsplit := List.length_eq_length_filter_add (l := f.below k) (f.outputs.contains ·)
  omega

/-! ## What gluing keeps -/

theorem coherent : (f.weld ps g).Coherent := by
  have hjoin : (((f.unite g).removeNodes f.outputs).joinAll (ps.zip g.inputs)).Coherent := by
    apply ((hw.unites.coherent hw.left hw.right).removeNodes f.outputs).joinAll
    intro e he
    obtain ⟨hp, hout⟩ := hw.contains_feeder (List.of_mem_zip he).1
    have hi := (hw.inputs_right _ (List.of_mem_zip he).2).1
    rw [contains_removeNodes, contains_removeNodes, hw.unites.contains_iff.2 (.inl hp),
      hw.unites.contains_iff.2 (.inr hi)]
    simp [hout, hw.not_mem_outputs hi]
  exact ⟨hjoin.id_eq, hjoin.positive, hjoin.agree⟩

theorem idsBelow (hf : f.IdsBelow) (hg : g.IdsBelow) : (f.weld ps g).IdsBelow := by
  intro k hk
  rw [nextId_weld]
  rcases hw.contains_weld.1 hk with hk | hk
  · exact lt_max_of_lt_left (hf k hk.1)
  · exact lt_max_of_lt_right (hg k hk)

/-- All nodes of the second diagram rank above those of the first. -/
theorem acyclic (hf : f.Acyclic) (hg : g.Acyclic) : (f.weld ps g).Acyclic := by
  obtain ⟨rf, hrf, hlt⟩ := hw.left.exists_rank_lt hf
  obtain ⟨rg, hrg⟩ := hg
  refine ⟨fun k => if g.contains k = true then f.size + rg k else rf k, ?_⟩
  intro u v hu
  rcases hw.contains_weld.1 (contains_of_mem_above hu) with ⟨hv, hout⟩ | hv
  · have hmem := (hw.above_left hv hout).mem_iff.1 hu
    have hu' := hw.left.contains_of_mem_above hmem
    simp only [hw.apart u hu', hw.apart v hv, Bool.false_eq_true, if_false]
    exact hrf u v hmem
  · simp only [hv, if_true]
    by_cases hin : v ∈ g.inputs
    · obtain ⟨p, hp⟩ := hw.exists_feeder hin
      rw [hw.above_input hp, List.mem_singleton] at hu
      have hup := (hw.contains_feeder (List.of_mem_zip hp).1).1
      rw [← hu] at hup
      have := hlt u hup
      simp only [hw.apart u hup, Bool.false_eq_true, if_false]
      omega
    · have hmem := (hw.above_right hv hin).mem_iff.1 hu
      have := hrg u v hmem
      simp only [hw.right.contains_of_mem_above hmem, if_true]
      omega

end Welds

end Wiring.Diagram
