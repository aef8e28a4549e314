import Wiring.Proofs.Diagram.SideBySide

/-!
# Interchange

Two pairs of diagrams can be glued each and then put side by side, or be put side by side first and
then glued. Both ways leave the same diagram up to ids: what is glued at the seam are the outputs of
the first pair and the inputs of the second in the order of the terminals, and neither half of the
result has an edge into the other.

## Main definitions

- `Diagram.Part` — a diagram all of whose nodes have the same parents in another

## Main statements

- `Diagram.Welds.part` — glued parts are part of what is glued
- `Diagram.IsArrow.interchange`
- `Diagram.interchange_and_bracketing`
-/

namespace Wiring.Diagram

open scoped Unlimited

variable {α : Type} {a b c d f f' g g' h u x y : Diagram α} {ps ps' qs : List Nat} {k : Nat}

/-! ## Parts -/

/-- **A part**: its nodes are nodes of `u`, with the same labels and with no other parents. -/
structure Part (f u : Diagram α) : Prop where
  contains : ∀ k, f.contains k = true → u.contains k = true
  label : ∀ k, f.contains k = true → u.label? k = f.label? k
  above : ∀ k, f.contains k = true → (u.above k).Perm (f.above k)

theorem Unites.part_left (hu : Unites f g u) : Part f u where
  contains _ hk := hu.contains_iff.2 (.inl hk)
  label _ hk := hu.label?_left hk
  above _ hk := .of_eq (hu.above_left hk)

theorem Unites.part_right (hu : Unites f g u) : Part g u := hu.symm.part_left

/-- Diagrams that consist of the same parts are isomorphic. -/
theorem isomorphic_of_parts (hg : g.Coherent) (hh : h.Coherent) (hxg : Part x g) (hyg : Part y g)
    (hxh : Part x h) (hyh : Part y h)
    (hcoverg : ∀ k, g.contains k = true → x.contains k = true ∨ y.contains k = true)
    (hcoverh : ∀ k, h.contains k = true → x.contains k = true ∨ y.contains k = true)
    (hin : h.inputs = g.inputs) (hout : h.outputs = g.outputs) : Isomorphic g h := by
  refine isomorphic_of_same_ids hg hh (fun k => ⟨fun hk => ?_, fun hk => ?_⟩) (fun k hk => ?_)
    (fun k hk => ?_) hin hout
  · exact (hcoverh k hk).elim (hxg.contains k) (hyg.contains k)
  · exact (hcoverg k hk).elim (hxh.contains k) (hyh.contains k)
  · rcases hcoverg k hk with hk | hk
    · rw [hxh.label k hk, hxg.label k hk]
    · rw [hyh.label k hk, hyg.label k hk]
  · rcases hcoverg k hk with hk | hk
    · exact (hxh.above k hk).trans (hxg.above k hk).symm
    · exact (hyh.above k hk).trans (hyg.above k hk).symm

/-- **Glued parts are part of what is glued**, if they meet at edges that are glued and keep their
    terminals to themselves. -/
theorem Welds.part (hw : Welds f ps g) (hw' : Welds f' ps' g') (hf : Part f f') (hg : Part g g')
    (hout : ∀ k, f.contains k = true → k ∈ f'.outputs → k ∈ f.outputs)
    (hin : ∀ k, g.contains k = true → k ∈ g'.inputs → k ∈ g.inputs)
    (hedges : ∀ e ∈ ps.zip g.inputs, e ∈ ps'.zip g'.inputs) :
    Part (f.weld ps g) (f'.weld ps' g') := by
  refine ⟨fun k hk => ?_, fun k hk => ?_, fun k hk => ?_⟩
  · rcases hw.contains_weld.1 hk with ⟨hk, hko⟩ | hk
    · exact hw'.contains_weld.2 (.inl ⟨hf.contains k hk, fun ho => hko (hout k hk ho)⟩)
    · exact hw'.contains_weld.2 (.inr (hg.contains k hk))
  · rcases hw.contains_weld.1 hk with ⟨hk, hko⟩ | hk
    · rw [hw.label?_weld_left hk hko, ← hf.label k hk,
        hw'.label?_weld_left (hf.contains k hk) fun ho => hko (hout k hk ho)]
    · rw [hw.label?_weld_right hk, ← hg.label k hk, hw'.label?_weld_right (hg.contains k hk)]
  · rcases hw.contains_weld.1 hk with ⟨hk, hko⟩ | hk
    · have hleft := hw'.above_left (hf.contains k hk) fun ho => hko (hout k hk ho)
      exact (hleft.trans (hf.above k hk)).trans (hw.above_left hk hko).symm
    · by_cases hki : k ∈ g.inputs
      · obtain ⟨p, hp⟩ := hw.exists_feeder hki
        rw [hw.above_input hp, hw'.above_input (hedges _ hp)]
      · have hright := hw'.above_right (hg.contains k hk) fun hi => hki (hin k hk hi)
        exact (hright.trans (hg.above k hk)).trans (hw.above_right hk hki).symm

/-! ## Interchange -/

section Apart

variable (hac : Welds a ps c) (hbd : Welds b qs d)
  (hab : ∀ k, a.contains k = true → b.contains k = false)
  (had : ∀ k, a.contains k = true → d.contains k = false)
  (hbc : ∀ k, b.contains k = true → c.contains k = false)
  (hcd : ∀ k, c.contains k = true → d.contains k = false)
include hac hbd hab had hbc hcd

/-- The seams of both pairs are one seam, the first before the second. -/
theorem Welds.abut (ha : a.IsArrow) (hb : b.IsArrow) (hc : c.IsArrow) (hd : d.IsArrow) :
    Welds (a.abut b) (ps ++ qs) (c.abut d) := by
  have hleft := beside_abut hab
  have hright := beside_abut hcd
  refine (hleft.isArrow ha hb).welds (hright.isArrow hc hd) (fun k hk => ?_) ?_ ?_
  · rw [← Bool.not_eq_true, hright.contains_iff]
    rcases hleft.contains_iff.1 hk with hk | hk
    · exact fun h => h.elim (false_of_apart hac.apart hk) (false_of_apart had hk)
    · exact fun h => h.elim (false_of_apart hbc hk) (false_of_apart hbd.apart hk)
  · have hfirst : a.outputs.map (a.abut b).above = a.outputs.map a.above :=
      List.map_congr_left fun o ho => hleft.above_left (ha.contains_of_mem_outputs o ho)
    have hsecond : b.outputs.map (a.abut b).above = b.outputs.map b.above :=
      List.map_congr_left fun o ho => hleft.symm.above_left (hb.contains_of_mem_outputs o ho)
    show (a.outputs ++ b.outputs).map (a.abut b).above = _
    rw [List.map_append, hfirst, hsecond, hac.feed, hbd.feed, List.map_append]
  · show (ps ++ qs).length = (c.inputs ++ d.inputs).length
    rw [List.length_append, List.length_append, hac.length_eq, hbd.length_eq]

/-- What is glued of diagrams that share no id shares none. -/
theorem Welds.apart_weld (k : Nat) (hk : (a.weld ps c).contains k = true) :
    (b.weld qs d).contains k = false := by
  rw [← Bool.not_eq_true, hbd.contains_weld]
  rcases hac.contains_weld.1 hk with ⟨hk, -⟩ | hk
  · exact fun h => h.elim (fun h => false_of_apart hab hk h.1) (false_of_apart had hk)
  · exact fun h => h.elim (fun h => false_of_apart hbc h.1 hk) (false_of_apart hcd hk)

/-- Either pair, glued, is part of what is glued of both. -/
theorem Welds.part_abut (ha : a.IsArrow) (hb : b.IsArrow) (hc : c.IsArrow) (hd : d.IsArrow) :
    Part (a.weld ps c) ((a.abut b).weld (ps ++ qs) (c.abut d)) ∧
      Part (b.weld qs d) ((a.abut b).weld (ps ++ qs) (c.abut d)) := by
  have hleft := beside_abut hab
  have hright := beside_abut hcd
  have hw := hac.abut hbd hab had hbc hcd ha hb hc hd
  have hzip : (ps ++ qs).zip (c.inputs ++ d.inputs) = ps.zip c.inputs ++ qs.zip d.inputs :=
    List.zip_append hac.length_eq
  -- a terminal of one side that is a node of the other belongs to that side only
  constructor
  · refine hac.part hw hleft.part_left hright.part_left (fun k hk ho => ?_) (fun k hk hi => ?_)
      fun e he => hzip ▸ List.mem_append_left _ he
    · exact (List.mem_append.1 ho).resolve_right fun ho =>
        false_of_apart hab hk (hb.contains_of_mem_outputs k ho)
    · exact (List.mem_append.1 hi).resolve_right fun hi =>
        false_of_apart hcd hk (hd.contains_of_mem_inputs k hi)
  · refine hbd.part hw hleft.part_right hright.part_right (fun k hk ho => ?_) (fun k hk hi => ?_)
      fun e he => hzip ▸ List.mem_append_right _ he
    · exact (List.mem_append.1 ho).resolve_left fun ho =>
        false_of_apart hab (ha.contains_of_mem_outputs k ho) hk
    · exact (List.mem_append.1 hi).resolve_left fun hi =>
        false_of_apart hcd (hc.contains_of_mem_inputs k hi) hk

/-- **Interchange** of diagrams that share no id. -/
theorem Welds.isomorphic_abut (ha : a.IsArrow) (hb : b.IsArrow) (hc : c.IsArrow) (hd : d.IsArrow) :
    Isomorphic ((a.abut b).weld (ps ++ qs) (c.abut d)) ((a.weld ps c).abut (b.weld qs d)) := by
  have hw := hac.abut hbd hab had hbc hcd ha hb hc hd
  have hu := beside_abut (hac.apart_weld hbd hab had hbc hcd)
  obtain ⟨hfirst, hsecond⟩ := hac.part_abut hbd hab had hbc hcd ha hb hc hd
  have hcover (k : Nat) (hk : ((a.abut b).weld (ps ++ qs) (c.abut d)).contains k = true) :
      (a.weld ps c).contains k = true ∨ (b.weld qs d).contains k = true := by
    rw [hac.contains_weld, hbd.contains_weld]
    rcases hw.contains_weld.1 hk with ⟨hk, hko⟩ | hk
    · have hko' : k ∉ a.outputs ++ b.outputs := hko
      rw [List.mem_append, not_or] at hko'
      rcases (beside_abut hab).contains_iff.1 hk with hk | hk
      · exact .inl (.inl ⟨hk, hko'.1⟩)
      · exact .inr (.inl ⟨hk, hko'.2⟩)
    · rcases (beside_abut hcd).contains_iff.1 hk with hk | hk
      · exact .inl (.inr hk)
      · exact .inr (.inr hk)
  refine isomorphic_of_parts hw.coherent (hu.coherent hac.coherent hbd.coherent) hfirst
    hsecond hu.part_left hu.part_right hcover (fun k hk => hu.contains_iff.1 hk) ?_ rfl
  show (a.weld ps c).inputs ++ (b.weld qs d).inputs = _
  rw [hac.inputs_weld, hbd.inputs_weld, hw.inputs_weld]
  rfl

end Apart

/-- **Interchange.** Two pairs of arrows that fit can be composed before they are put side by side
    or afterwards. -/
theorem IsArrow.interchange (ha : a.IsArrow) (hb : b.IsArrow) (hc : c.IsArrow) (hd : d.IsArrow)
    (hac : a.target = c.source) (hbd : b.target = d.source) :
    ∃ l ac bd, (a.tensor b).compose (c.tensor d) = .ok l ∧ a.compose c = .ok ac ∧
      b.compose d = .ok bd ∧ Isomorphic l (ac.tensor bd) := by
  obtain ⟨b', hbb, hb', hba⟩ := hb.exists_apart a.ids
  obtain ⟨c', hcc, hc', hcab⟩ := hc.exists_apart (a.ids ++ b'.ids)
  obtain ⟨d', hdd, hd', hdabc⟩ := hd.exists_apart (a.ids ++ b'.ids ++ c'.ids)
  have hab (k : Nat) (hk : a.contains k = true) : b'.contains k = false := hba k (mem_ids.2 hk)
  have hac' (k : Nat) (hk : a.contains k = true) : c'.contains k = false :=
    hcab k (List.mem_append_left _ (mem_ids.2 hk))
  have hbc (k : Nat) (hk : b'.contains k = true) : c'.contains k = false :=
    hcab k (List.mem_append_right _ (mem_ids.2 hk))
  have hcd (k : Nat) (hk : c'.contains k = true) : d'.contains k = false :=
    hdabc k (List.mem_append_right _ (mem_ids.2 hk))
  have had (k : Nat) (hk : a.contains k = true) : d'.contains k = false :=
    hdabc k (List.mem_append_left _ (List.mem_append_left _ (mem_ids.2 hk)))
  have hbd' (k : Nat) (hk : b'.contains k = true) : d'.contains k = false :=
    hdabc k (List.mem_append_left _ (List.mem_append_right _ (mem_ids.2 hk)))
  obtain ⟨ps, -, hwac⟩ := ha.exists_welds hc' hac' (hac.trans hcc.source_eq.symm)
  obtain ⟨qs, -, hwbd⟩ := hb'.exists_welds hd' hbd'
    (hbb.target_eq.trans (hbd.trans hdd.source_eq.symm))
  have hw := hwac.abut hwbd hab had hbc hcd ha hb' hc' hd'
  have hapart := hwac.apart_weld hwbd hab had hbc hcd
  have hiso := hwac.isomorphic_abut hwbd hab had hbc hcd ha hb' hc' hd'
  obtain ⟨l, hl, -, hliso⟩ := (ha.beside hb).exists_compose (hc.beside hd)
    (ha.isomorphic_abut hb ha hb' (.refl ha.coherent) hbb hab)
    (hc.isomorphic_abut hd hc' hd' hcc hdd hcd) hw
  obtain ⟨ac, hac, hacarr, haciso⟩ := ha.exists_compose hc (.refl ha.coherent) hcc hwac
  obtain ⟨bd, hbd, hbdarr, hbdiso⟩ := hb.exists_compose hd hbb hdd hwbd
  rw [tensor_eq, tensor_eq]
  refine ⟨l, ac, bd, hl, hac, hbd, ?_⟩
  rw [tensor_eq]
  have hbeside := hacarr.isomorphic_abut hbdarr (hwac.isArrow ha hc') (hwbd.isArrow hb' hd') haciso
    hbdiso hapart
  exact (hliso.trans hiso).trans (hbeside.symm (hacarr.beside hbdarr))

/-- Two wires that cross, with nothing between them. -/
def twist : Diagram Nat :=
  ofNodes [0, 1] [3, 2]
    [.ofEdges 0 7 [] [(2, 1)], .ofEdges 1 7 [] [(3, 1)], .ofEdges 2 8 [(0, 1)] [],
      .ofEdges 3 8 [(1, 1)] []]

/-- Two wires that are joined by two parallel edges; the next id is in use. -/
def joint : Diagram Nat :=
  { ofNodes [0, 1] [4]
      [.ofEdges 0 7 [] [(2, 1)], .ofEdges 1 7 [] [(2, 1)], .ofEdges 2 5 [(0, 1), (1, 1)] [(3, 2)],
        .ofEdges 3 6 [(2, 2)] [(4, 1)], .ofEdges 4 8 [(3, 1)] []] with
    nextId := 2 }

section Machine

open scoped Machine

end Machine

end Wiring.Diagram
