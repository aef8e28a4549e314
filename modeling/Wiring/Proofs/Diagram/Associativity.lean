import Wiring.Proofs.Diagram.Isomorphism

/-!
# Composition is associative

Which ids the operands of a composition use makes no difference to it, except for the ids of what
comes out. So operands may be taken that share no id, and then both ways to compose three of them
leave the same nodes under the same ids, with the same edges.

## Main statements

- `Diagram.Welds.renames` — operands under other ids give the composite under other ids
- `Diagram.Welds.weld_left`, `Diagram.Welds.weld_right` — a glued diagram can be glued again
- `Diagram.Welds.isomorphic_weld_weld` — and in any order
- `Diagram.IsArrow.compose_congr` — isomorphic operands have isomorphic composites
- `Diagram.IsArrow.compose_assoc` — composition is associative up to isomorphism
-/

namespace Wiring.Diagram

open scoped Unlimited

variable {α : Type} {a b c f f' g g' h : Diagram α} {φ ψ : Nat → Nat} {ps ps' qs : List Nat}

/-! ## Operands under other ids -/

/-- The nodes that feed the outputs correspond too. -/
theorem Welds.feeders_map (hw : Welds f ps g) (hw' : Welds f' ps' g') (hφ : Renames φ f f') :
    ps' = ps.map φ := by
  have hfeed : f'.outputs.map f'.above = (f.outputs.map f.above).map (List.map φ) := by
    rw [hφ.outputs, List.map_map, List.map_map]
    refine List.map_congr_left fun o ho => ?_
    have hmem : f.above o ∈ ps.map ([·]) := hw.feed ▸ List.mem_map_of_mem ho
    obtain ⟨p, -, hp⟩ := List.mem_map.1 hmem
    have hperm := hφ.above o (hw.contains_output ho)
    rw [← hp] at hperm
    rw [Function.comp_apply, Function.comp_apply, ← hp]
    exact List.perm_singleton.1 hperm
  rw [hw'.feed, hw.feed, List.map_map] at hfeed
  have hinj : Function.Injective (fun p : Nat => [p]) := fun _ _ heq => List.singleton_inj.1 heq
  refine (List.map_injective_iff.2 hinj) (hfeed.trans ?_)
  rw [List.map_map]
  rfl

/-- The nodes that stay when outputs go correspond. -/
theorem Renames.bijOn_inner (hφ : Renames φ f f') (hout : ∀ o ∈ f.outputs, f.contains o = true) :
    Set.BijOn φ {k | f.contains k = true ∧ k ∉ f.outputs}
      {k | f'.contains k = true ∧ k ∉ f'.outputs} := by
  refine ⟨fun k hk => ⟨hφ.contains hk.1, ?_⟩, fun i hi j hj => hφ.injOn hi.1 hj.1, fun j hj => ?_⟩
  · rw [hφ.outputs, hφ.mem_map hk.1 hout]
    exact hk.2
  · obtain ⟨k, hk, rfl⟩ := hφ.exists_eq hj.1
    refine ⟨k, ⟨hk, fun ho => hj.2 ?_⟩, rfl⟩
    rw [hφ.outputs]
    exact List.mem_map_of_mem ho

/-- **Operands under other ids give the composite under other ids.** -/
theorem Welds.renames (hw : Welds f ps g) (hw' : Welds f' ps' g') (hφ : Renames φ f f')
    (hψ : Renames ψ g g') (hin : ∀ i ∈ f.inputs, f.contains i = true)
    (hout : ∀ o ∈ g.outputs, g.contains o = true) :
    Renames (f.either φ ψ) (f.weld ps g) (f'.weld ps' g') := by
  have hps := hw.feeders_map hw' hφ
  have hinner := hφ.bijOn_inner fun o ho => hw.contains_output ho
  have hright := hw.unites.apart_right
  -- a node of the composite is one of the second operand, or one of the first and not an output;
  -- ids that do not occur in one operand are sent where the other sends them
  refine renames_of_above hw.coherent hw'.coherent ?_ (fun k hk => ?_) (fun k hk => ?_) ?_ ?_
  · have hset {f g : Diagram α} {ps : List Nat} (hw : Welds f ps g) :
        {k | (f.weld ps g).contains k = true} =
          {k | f.contains k = true ∧ k ∉ f.outputs} ∪ {k | g.contains k = true} :=
      Set.ext fun k => hw.contains_weld
    rw [hset hw, hset hw']
    exact bijOn_either hinner hψ.bijOn (fun k hk => hk.1) (fun k hk => hright k hk)
      fun k hk => false_of_apart hw'.apart hk.1
  · rcases hw.contains_weld.1 hk with ⟨hkf, hko⟩ | hkg
    · rw [either_left hkf, hw'.label?_weld_left (hφ.contains hkf) (hinner.mapsTo ⟨hkf, hko⟩).2,
        hφ.label k hkf, hw.label?_weld_left hkf hko]
    · rw [either_right (hright k hkg), hw'.label?_weld_right (hψ.contains hkg), hψ.label k hkg,
        hw.label?_weld_right hkg]
  · rcases hw.contains_weld.1 hk with ⟨hkf, hko⟩ | hkg
    · have hperm := hw.above_left hkf hko
      have hsame : ((f.weld ps g).above k).map (f.either φ ψ) = ((f.weld ps g).above k).map φ :=
        map_either_left fun p hp => hw.left.contains_of_mem_above (hperm.mem_iff.1 hp)
      rw [hsame, either_left hkf]
      exact ((hw'.above_left (hφ.contains hkf) (hinner.mapsTo ⟨hkf, hko⟩).2).trans
        (hφ.above k hkf)).trans (hperm.map φ).symm
    · rw [either_right (hright k hkg)]
      by_cases hki : k ∈ g.inputs
      · -- the edge that glues `k` is the one that glues its counterpart
        obtain ⟨p, hp⟩ := hw.exists_feeder hki
        have hp' : (φ p, ψ k) ∈ ps'.zip g'.inputs := by
          rw [hps, hψ.inputs, List.zip_map]
          exact List.mem_map_of_mem (f := Prod.map φ ψ) hp
        rw [hw.above_input hp, hw'.above_input hp', List.map_singleton,
          either_left (hw.contains_feeder (List.of_mem_zip hp).1).1]
      · have hperm := hw.above_right hkg hki
        have hsame : ((f.weld ps g).above k).map (f.either φ ψ) = ((f.weld ps g).above k).map ψ :=
          map_either_right fun p hp =>
            hright p (hw.right.contains_of_mem_above (hperm.mem_iff.1 hp))
        have hki' : ψ k ∉ g'.inputs := by
          rw [hψ.inputs, hψ.mem_map hkg fun i hi => (hw.inputs_right i hi).1]
          exact hki
        rw [hsame]
        exact ((hw'.above_right (hψ.contains hkg) hki').trans (hψ.above k hkg)).trans
          (hperm.map ψ).symm
  · rw [hw'.inputs_weld, hw.inputs_weld, hφ.inputs, map_either_left hin]
  · show g'.outputs = g.outputs.map (f.either φ ψ)
    rw [hψ.outputs, map_either_right fun o ho => hright o (hout o ho)]

/-! ## Three operands -/

section Three

variable (hab : Welds a ps b) (hbc : Welds b qs c)
  (hapart : ∀ k, a.contains k = true → c.contains k = false)
include hab hbc hapart

/-- What is glued to `b` can be glued to `b` with `a` before it. -/
theorem Welds.weld_left (ha : a.IsArrow) (hb : b.IsArrow) (hc : c.IsArrow) :
    Welds (a.weld ps b) qs c := by
  refine (hab.isArrow ha hb).welds hc (fun k hk => ?_) ?_ hbc.length_eq
  · rcases hab.contains_weld.1 hk with ⟨hk, -⟩ | hk
    · exact hapart k hk
    · exact hbc.apart k hk
  · show b.outputs.map (a.weld ps b).above = _
    rw [← hbc.feed]
    refine List.map_congr_left fun o ho => ?_
    have hin : o ∉ b.inputs := fun hi => hb.not_mem_outputs hi ho
    obtain ⟨p, hp⟩ := List.length_eq_one_iff.1 (hb.output ho).2.2
    have hperm := hab.above_right (hb.output ho).1 hin
    rw [hp, List.perm_singleton] at hperm
    rw [hperm, hp]

/-- What `b` is glued to can be glued to `b` with `c` after it. -/
theorem Welds.weld_right (ha : a.IsArrow) (hb : b.IsArrow) (hc : c.IsArrow) :
    Welds a ps (b.weld qs c) := by
  refine ha.welds (hbc.isArrow hb hc) (fun k hk => ?_) hab.feed ?_
  · rw [← Bool.not_eq_true, hbc.contains_weld]
    rintro (⟨hkb, -⟩ | hkc)
    · exact false_of_apart hab.apart hk hkb
    · exact false_of_apart hapart hk hkc
  · rw [hbc.inputs_weld, hab.length_eq]

/-- **Gluing is associative** if the operands share no id: the same nodes are joined in the same
    way. -/
theorem Welds.isomorphic_weld_weld (ha : a.IsArrow) (hb : b.IsArrow) (hc : c.IsArrow) :
    Isomorphic ((a.weld ps b).weld qs c) (a.weld ps (b.weld qs c)) := by
  have hl := hab.weld_left hbc hapart ha hb hc
  have hr := hab.weld_right hbc hapart ha hb hc
  -- no node of `a` or `c` is an output or an input of `b`
  have hout (k : Nat) (hk : a.contains k = true) : k ∉ (a.weld ps b).outputs := fun ho =>
    false_of_apart hab.apart hk (hb.contains_of_mem_outputs k ho)
  have hin (k : Nat) (hk : c.contains k = true) : k ∉ (b.weld qs c).inputs := fun hi => by
    rw [hbc.inputs_weld] at hi
    exact false_of_apart hbc.apart (hb.contains_of_mem_inputs k hi) hk
  have hcases (k : Nat) (hk : ((a.weld ps b).weld qs c).contains k = true) :
      (a.contains k = true ∧ k ∉ a.outputs) ∨ (b.contains k = true ∧ k ∉ b.outputs) ∨
        c.contains k = true := by
    rcases hl.contains_weld.1 hk with ⟨hk, hko⟩ | hk
    · exact (hab.contains_weld.1 hk).imp_right fun hk => .inl ⟨hk, hko⟩
    · exact .inr (.inr hk)
  refine isomorphic_of_same_ids hl.coherent hr.coherent (fun k => ⟨fun hk => ?_, fun hk => ?_⟩)
    (fun k hk => ?_) (fun k hk => ?_) ?_ rfl
  · rcases hr.contains_weld.1 hk with hk | hk
    · exact hl.contains_weld.2 (.inl ⟨hab.contains_weld.2 (.inl hk), hout k hk.1⟩)
    · rcases hbc.contains_weld.1 hk with hk | hk
      · exact hl.contains_weld.2 (.inl ⟨hab.contains_weld.2 (.inr hk.1), hk.2⟩)
      · exact hl.contains_weld.2 (.inr hk)
  · rw [hr.contains_weld, hbc.contains_weld]
    exact hcases k hk
  · rcases hcases k hk with ⟨hka, hko⟩ | ⟨hkb, hko⟩ | hkc
    · rw [hr.label?_weld_left hka hko,
        hl.label?_weld_left (hab.contains_weld.2 (.inl ⟨hka, hko⟩)) (hout k hka),
        hab.label?_weld_left hka hko]
    · rw [hr.label?_weld_right (hbc.contains_weld.2 (.inl ⟨hkb, hko⟩)),
        hl.label?_weld_left (hab.contains_weld.2 (.inr hkb)) hko, hab.label?_weld_right hkb,
        hbc.label?_weld_left hkb hko]
    · rw [hr.label?_weld_right (hbc.contains_weld.2 (.inr hkc)), hl.label?_weld_right hkc,
        hbc.label?_weld_right hkc]
  · rcases hcases k hk with ⟨hka, hko⟩ | ⟨hkb, hko⟩ | hkc
    · exact (hr.above_left hka hko).trans
        ((hl.above_left (hab.contains_weld.2 (.inl ⟨hka, hko⟩)) (hout k hka)).trans
          (hab.above_left hka hko)).symm
    · have houter := hl.above_left (hab.contains_weld.2 (.inr hkb)) hko
      by_cases hki : k ∈ b.inputs
      · obtain ⟨p, hp⟩ := hab.exists_feeder hki
        rw [hr.above_input (hbc.inputs_weld ▸ hp)]
        rw [hab.above_input hp] at houter
        exact houter.symm
      · have hki' : k ∉ (b.weld qs c).inputs := hbc.inputs_weld ▸ hki
        exact ((hr.above_right (hbc.contains_weld.2 (.inl ⟨hkb, hko⟩)) hki').trans
          (hbc.above_left hkb hko)).trans (houter.trans (hab.above_right hkb hki)).symm
    · have houter := hr.above_right (hbc.contains_weld.2 (.inr hkc)) (hin k hkc)
      by_cases hki : k ∈ c.inputs
      · obtain ⟨q, hq⟩ := hbc.exists_feeder hki
        rw [hl.above_input hq]
        rw [hbc.above_input hq] at houter
        exact houter
      · exact (houter.trans (hbc.above_right hkc hki)).trans (hl.above_right hkc hki).symm
  · rw [hr.inputs_weld, hl.inputs_weld, hab.inputs_weld]

end Three

/-! ## Composition -/

namespace IsArrow

/-- Arrows that fit have a composite, in which the second has moved out of the way. -/
theorem compose_eq_ok (hf : f.IsArrow) (hg : g.IsArrow) (hfit : f.target = g.source) :
    ∃ ps, f.compose g = .ok (f.weld ps (g.apartFrom f)) ∧ Welds f ps (g.apartFrom f) := by
  have hfit' : f.target = (g.apartFrom f).source :=
    hfit.trans (hg.isomorphic_apartFrom f).source_eq.symm
  obtain ⟨ps, hps, hw⟩ := hf.exists_welds (hg.shift _)
    (fun k hk => not_contains_apartFrom hg.coherent.id_eq hk) hfit'
  have hlength : f.outputs.length = g.inputs.length := hfit
  have hcheck : f.checkGlue g = .ok ps := by rw [checkGlue, if_pos hlength, hps]
  refine ⟨ps, ?_, hw⟩
  rw [compose, hcheck, ← glue_eq]
  rfl

/-- **Arrows that are isomorphic to glued ones have a composite**, and this is isomorphic to what
    has been glued. -/
theorem exists_compose (hf : f.IsArrow) (hg : g.IsArrow) (hff : Isomorphic f f')
    (hgg : Isomorphic g g') (hw : Welds f' ps g') :
    ∃ h, f.compose g = .ok h ∧ h.IsArrow ∧ Isomorphic h (f'.weld ps g') := by
  have hlength : f'.target = g'.source := by
    have hfeed := congrArg List.length hw.feed
    rw [List.length_map, List.length_map] at hfeed
    exact hfeed.trans hw.length_eq
  have hfit : f.target = g.source := by rw [← hff.target_eq, hlength, hgg.source_eq]
  obtain ⟨qs, hcompose, hw'⟩ := hf.compose_eq_ok hg hfit
  have hg' : (g.apartFrom f).IsArrow := hg.shift _
  refine ⟨_, hcompose, hw'.isArrow hf hg', ?_⟩
  obtain ⟨φ, hφ⟩ := hff
  obtain ⟨ψ, hψ⟩ := ((hg.isomorphic_apartFrom f).symm hg).trans hgg
  exact ⟨_, hw'.renames hw hφ hψ hf.contains_of_mem_inputs hg'.contains_of_mem_outputs⟩

/-- **Isomorphic operands have isomorphic composites.** -/
theorem compose_congr (hf : f.IsArrow) (hg : g.IsArrow) (hf' : f'.IsArrow) (hg' : g'.IsArrow)
    (hff : Isomorphic f f') (hgg : Isomorphic g g') (hfit : f'.target = g'.source) :
    ∃ h h', f.compose g = .ok h ∧ f'.compose g' = .ok h' ∧ h.IsArrow ∧ h'.IsArrow ∧
      Isomorphic h h' := by
  obtain ⟨ps, hcompose', hw⟩ := hf'.compose_eq_ok hg' hfit
  obtain ⟨h, hcompose, hh, hiso⟩ := hf.exists_compose hg hff
    (hgg.trans (hg'.isomorphic_apartFrom f')) hw
  exact ⟨h, _, hcompose, hcompose', hh, hw.isArrow hf' (hg'.shift _), hiso⟩

/-- **Composition is associative**, up to ids: both ways to compose three arrows that fit succeed,
    with isomorphic results. -/
theorem compose_assoc (ha : a.IsArrow) (hb : b.IsArrow) (hc : c.IsArrow)
    (hab : a.target = b.source) (hbc : b.target = c.source) :
    ∃ ab bc l r, a.compose b = .ok ab ∧ ab.compose c = .ok l ∧ b.compose c = .ok bc ∧
      a.compose bc = .ok r ∧ Isomorphic l r := by
  obtain ⟨b', hbb, hb', hba⟩ := hb.exists_apart a.ids
  obtain ⟨c', hcc, hc', hcab⟩ := hc.exists_apart (a.ids ++ b'.ids)
  have hapart (k : Nat) (hk : a.contains k = true) : c'.contains k = false :=
    hcab k (List.mem_append_left _ (mem_ids.2 hk))
  obtain ⟨ps, -, hwab⟩ := ha.exists_welds hb' (fun k hk => hba k (mem_ids.2 hk))
    (hab.trans hbb.source_eq.symm)
  obtain ⟨qs, -, hwbc⟩ := hb'.exists_welds hc'
    (fun k hk => hcab k (List.mem_append_right _ (mem_ids.2 hk)))
    (hbb.target_eq.trans (hbc.trans hcc.source_eq.symm))
  obtain ⟨ab, habeq, harr, habiso⟩ :=
    ha.exists_compose hb (.refl ha.coherent) hbb hwab
  obtain ⟨bc, hbceq, hbarr, hbciso⟩ := hb.exists_compose hc hbb hcc hwbc
  obtain ⟨l, hleq, -, hliso⟩ := harr.exists_compose hc habiso hcc
    (hwab.weld_left hwbc hapart ha hb' hc')
  obtain ⟨r, hreq, hrarr, hriso⟩ := ha.exists_compose hbarr (.refl ha.coherent) hbciso
    (hwab.weld_right hwbc hapart ha hb' hc')
  refine ⟨ab, bc, l, r, habeq, hleq, hbceq, hreq, ?_⟩
  exact (hliso.trans (hwab.isomorphic_weld_weld hwbc hapart ha hb' hc')).trans (hriso.symm hrarr)

end IsArrow

end Wiring.Diagram
