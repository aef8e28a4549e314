import Wiring.Proofs.Diagram.Arrow
import Wiring.Proofs.Diagram.Orderly
import Wiring.Proofs.Words.Renumbering
import Wiring.Proofs.Words.Room

/-!
# Composition within words

Composing diagrams raises ids and joins nodes that have not been joined before. The degrees of a
composite are degrees of its operands, and its span is not larger than the sum of theirs, so that
all composition within words is as without a limit as long as they hold that sum.

## Main definitions

- `Diagram.FittedWithin` — a fitted diagram whose degrees words hold, with a bound on its span

## Main statements

- `Diagram.Welds.degreesHold` — the degrees of a glued diagram
- `Diagram.FittedWithin.beside`, `Diagram.FittedWithin.glue` — composites of fitted diagrams
- `Diagram.FittedWithin.besideAll`, `Diagram.FittedWithin.compose_eq` — and composition without a
  limit
-/

namespace Wiring.Diagram

variable [Words] {α : Type} {f g h u : Diagram α} {ps : List Nat} {m n : Nat}

/-! ## Degrees of composites -/

theorem Unites.degreesHold (hu : Unites f g u) (hf : f.DegreesHold) (hg : g.DegreesHold) :
    u.DegreesHold := by
  intro k hk
  rw [hu.above_eq, hu.below_eq]
  rcases hu.contains_iff.1 (mem_ids.1 hk) with hk | hk
  · rw [above_eq_nil (hu.apart k hk), below_eq_nil (hu.apart k hk), List.append_nil,
      List.append_nil]
    exact hf.holds k
  · rw [above_eq_nil (hu.apart_right k hk), below_eq_nil (hu.apart_right k hk), List.nil_append,
      List.nil_append]
    exact hg.holds k

namespace Welds

variable (hw : Welds f ps g) (hf : f.DegreesHold)
include hw hf

/-- Where something is glued there is an output with an edge, which words hold. -/
theorem holds_one {p : Nat} (hp : p ∈ ps) : Words.Holds 1 := by
  have hmem : [p] ∈ f.outputs.map f.above := hw.feed ▸ List.mem_map_of_mem hp
  obtain ⟨o, -, ho⟩ := List.mem_map.1 hmem
  have hone := (hf.holds o).1
  rwa [ho] at hone

theorem degreesHold (hg : g.DegreesHold) : (f.weld ps g).DegreesHold := by
  intro k hk
  rcases hw.contains_weld.1 (mem_ids.1 hk) with ⟨hk, hout⟩ | hk
  · rw [(hw.above_left hk hout).length_eq, hw.length_below_left hk hout]
    exact hf.holds k
  · rw [(hw.below_right hk).length_eq]
    refine ⟨?_, (hg.holds k).2⟩
    by_cases hin : k ∈ g.inputs
    · obtain ⟨p, hp⟩ := hw.exists_feeder hin
      rw [hw.above_input hp]
      exact hw.holds_one hf (List.of_mem_zip hp).1
    · rw [(hw.above_right hk hin).length_eq]
      exact (hg.holds k).1

/-- **Every seam is a new edge**, so that words need not hold more than one. -/
theorem joinAll_eq :
    ((f.unite g).removeNodes f.outputs).joinAll (ps.zip g.inputs) =
      letI := Unlimited.words; ((f.unite g).removeNodes f.outputs).joinAll (ps.zip g.inputs) := by
  have hunited := hw.unites.coherent hw.left hw.right
  refine (hunited.removeNodes f.outputs).joinAll_eq (fun e he => ?_) fun e he => ?_
  · obtain ⟨hp, hout⟩ := hw.contains_feeder (List.of_mem_zip he).1
    have hi := (hw.inputs_right _ (List.of_mem_zip he).2).1
    rw [contains_removeNodes, contains_removeNodes, hw.unites.contains_iff.2 (.inl hp),
      hw.unites.contains_iff.2 (.inr hi)]
    simp [hout, hw.not_mem_outputs hi]
  · obtain ⟨hi, hnil⟩ := hw.inputs_right _ (List.of_mem_zip he).2
    have hnone : ((f.unite g).removeNodes f.outputs).edges e.1 e.2 = 0 := by
      rw [(hunited.removeNodes f.outputs).edges_eq_above, hunited.above_removeNodes,
        hw.unites.above_eq, above_eq_nil (hw.unites.apart_right _ hi), hnil]
      split <;> rfl
    have hone : (ps.zip g.inputs).count e ≤ 1 := by
      rw [← List.length_singleton (a := e.1), ← map_filter_zip hw.nodup_inputs he, List.length_map,
        ← List.countP_eq_length_filter]
      exact List.countP_mono_left fun e' _ heq => by rw [beq_iff_eq] at heq ⊢; rw [heq]
    rw [hnone, Nat.zero_add]
    exact (hw.holds_one hf (List.of_mem_zip he).1).mono hone

end Welds

/-- Diagrams are glued as without a limit, if the second is raised so. -/
theorem Welds.glue_eq (hw : Welds f ps (letI _ := Unlimited.words; g.apartFrom f))
    (hf : f.DegreesHold) (hapart : g.apartFrom f = letI := Unlimited.words; g.apartFrom f) :
    f.glue ps g = letI := Unlimited.words; f.glue ps g := by
  have hunfold [Words] (f g : Diagram α) : f.glue ps g =
      { ((f.unite (g.apartFrom f)).removeNodes f.outputs).joinAll
            (ps.zip (g.apartFrom f).inputs) with
        outputs := (g.apartFrom f).outputs } := rfl
  rw [hunfold, hapart, hw.joinAll_eq hf, ← @hunfold Unlimited.words]

/-! ## Fitted diagrams -/

omit [Words] in
theorem Fitted.selfContained (hg : g.Fitted) : g.SelfContained :=
  ⟨hg.coherent, fun i hi => (hg.input i hi).1, fun o ho => (hg.output o ho).1⟩

omit [Words] in
theorem Fitted.relabelAll (hg : g.Fitted) (es : List (Nat × α)) : (g.relabelAll es).Fitted where
  coherent := hg.coherent.relabelAll es
  nodup_inputs := by simpa using hg.nodup_inputs
  nodup_outputs := by simpa using hg.nodup_outputs
  input := by simpa using hg.input
  output := by simpa using hg.output

/-- **A fitted diagram within words**, which hold its degrees, with a bound on its span. -/
structure FittedWithin (b : Nat) (g : Diagram α) : Prop where
  fitted : g.Fitted
  degrees : g.DegreesHold
  span_le : g.span ≤ b

omit [Words] in
theorem IsArrow.fitted (hg : letI := Unlimited.words; g.IsArrow) : g.Fitted := by
  obtain ⟨hcoherent, hnodup, hnodup', hin, hout⟩ := isArrow_iff.1 hg
  exact ⟨hcoherent, hnodup, hnodup', fun i hi => ⟨(hin i hi).1, (hin i hi).2.1⟩,
    fun o ho => ⟨(hout o ho).1, (hout o ho).2.1⟩⟩

/-- Arrows are within their spans. -/
theorem IsArrow.fittedWithin (hg : g.IsArrow) (hdegrees : g.DegreesHold) :
    FittedWithin g.span g :=
  ⟨(hdegrees.isArrow_iff.1 hg).fitted, hdegrees, Nat.le_refl _⟩

namespace FittedWithin

theorem mono (hg : FittedWithin m g) (hmn : m ≤ n) : FittedWithin n g :=
  ⟨hg.fitted, hg.degrees, hg.span_le.trans hmn⟩

theorem relabelAll (hg : FittedWithin n g) (es : List (Nat × α)) :
    FittedWithin n (g.relabelAll es) where
  fitted := hg.fitted.relabelAll es
  degrees k _ := by
    rw [above_relabelAll, below_relabelAll]
    exact hg.degrees.holds k
  span_le := by
    rw [(hg.fitted.relabelAll es).selfContained.span_le_iff, nextId_relabelAll]
    simp only [contains_relabelAll]
    exact hg.fitted.selfContained.span_le_iff.1 hg.span_le

theorem apartFrom (hg : FittedWithin n g) (hf : f.span ≤ m) :
    FittedWithin (m + n) (letI _ := Unlimited.words; g.apartFrom f) where
  fitted := hg.fitted.shift _
  degrees := hg.degrees.shift hg.fitted.coherent.id_eq _
  span_le := by
    have hspan := hg.fitted.selfContained.span_apartFrom_le f
    have hle := hg.span_le
    omega

variable (hf : FittedWithin m f) (hg : FittedWithin n g)
include hf hg

theorem apartFrom_eq (hroom : Words.Holds (m + n)) :
    g.apartFrom f = letI := Unlimited.words; g.apartFrom f := by
  have hle := hf.span_le
  have hle' := hg.span_le
  exact Diagram.apartFrom_eq (hroom.mono (by omega))

/-! ### Side by side -/

theorem beside_eq (hroom : Words.Holds (m + n)) :
    f.beside g = letI := Unlimited.words; f.beside g := by
  unfold Diagram.beside
  rw [hf.apartFrom_eq hg hroom]

theorem beside : FittedWithin (m + n) (letI _ := Unlimited.words; f.beside g) := by
  have hg' := hg.apartFrom hf.span_le
  have hu := beside_beside (f := f) hg.fitted.coherent.id_eq
  have hfitted := hu.fitted hf.fitted hg'.fitted
  refine ⟨hfitted, hu.toUnites.degreesHold hf.degrees hg'.degrees, ?_⟩
  obtain ⟨hnext, hids⟩ := hf.fitted.selfContained.span_le_iff.1 hf.span_le
  obtain ⟨hnext', hids'⟩ := hg'.fitted.selfContained.span_le_iff.1 hg'.span_le
  refine hfitted.selfContained.span_le_iff.2 ⟨Nat.max_le.2 ⟨?_, hnext'⟩, fun k hk => ?_⟩
  · omega
  · rcases hu.contains_iff.1 hk with hk | hk
    · exact (hids k hk).trans_le (Nat.le_add_right _ _)
    · exact hids' k hk

/-! ### One after the other -/

theorem glue_eq (hroom : Words.Holds (m + n)) (hcheck : f.checkGlue g = .ok ps) :
    f.glue ps g = letI := Unlimited.words; f.glue ps g :=
  (hf.fitted.welds hg.fitted hcheck).glue_eq hf.degrees (hf.apartFrom_eq hg hroom)

theorem glue (hcheck : f.checkGlue g = .ok ps) :
    FittedWithin (m + n) (letI _ := Unlimited.words; f.glue ps g) := by
  have hg' := hg.apartFrom hf.span_le
  have hw := hf.fitted.welds hg.fitted hcheck
  have hfitted := hf.fitted.glue hg.fitted hcheck
  refine ⟨hfitted, hw.degreesHold hf.degrees hg'.degrees, ?_⟩
  obtain ⟨hnext, hids⟩ := hf.fitted.selfContained.span_le_iff.1 hf.span_le
  obtain ⟨hnext', hids'⟩ := hg'.fitted.selfContained.span_le_iff.1 hg'.span_le
  refine hfitted.selfContained.span_le_iff.2 ⟨?_, fun k hk => ?_⟩
  · rw [Diagram.glue_eq, nextId_weld]
    exact Nat.max_le.2 ⟨by omega, hnext'⟩
  · rcases hw.contains_weld.1 hk with hk | hk
    · exact (hids k hk.1).trans_le (Nat.le_add_right _ _)
    · exact hids' k hk

theorem compose_eq (hroom : Words.Holds (m + n)) :
    f.compose g = letI := Unlimited.words; f.compose g := by
  have hunfold [Words] (f g : Diagram α) :
      f.compose g = f.checkGlue g >>= fun ps => .ok (f.glue ps g) := rfl
  rw [hunfold, @hunfold Unlimited.words]
  cases hcheck : f.checkGlue g with
  | error fault => simp only [bind, Except.bind]
  | ok ps => simp only [bind, Except.bind, hf.glue_eq hg hroom hcheck]

theorem compose (hcompose : (letI _ := Unlimited.words; f.compose g) = .ok u) :
    FittedWithin (m + n) u := by
  obtain ⟨ps, hcheck, heq⟩ := bind_eq_ok_iff.1 hcompose
  cases heq
  exact hf.glue hg hcheck

end FittedWithin

/-! ## Bare wires -/

section Wires

variable [Inhabited α]

omit [Words] in
theorem nextId_identity (n : Nat) :
    (letI _ := Unlimited.words; (identity n : Diagram α)).nextId = 2 * n := by
  induction n with
  | zero => rfl
  | succ n ih =>
    show (letI _ := Unlimited.words; (identity n : Diagram α)).nextId + 2 = _
    rw [ih]
    omega

/-- Bare wires have two ids each. -/
theorem identity_eq (hroom : Words.Holds (2 * n)) :
    (identity n : Diagram α) = letI := Unlimited.words; identity n := by
  induction n with
  | zero => rfl
  | succ n ih =>
    have hunfold [Words] : (identity (n + 1) : Diagram α) = (identity n).addWire := rfl
    rw [hunfold, @hunfold Unlimited.words, ih (hroom.mono (by omega))]
    unfold addWire Node.ofEdges
    rw [nextId_identity, Words.wrap_of_holds (hroom.mono (by omega)),
      Words.wrap_of_holds (hroom.mono (by omega)), Words.wrap_unlimited, Words.wrap_unlimited]
    simp only [Tally.ofList_singleton_eq (hroom.mono (show 1 ≤ 2 * (n + 1) by omega))]
    rfl

end Wires

/-! ## Lists of diagrams -/

theorem besideAll_cons (f g : Diagram α) (gs : List (Diagram α)) :
    f.besideAll (g :: gs) = (f.beside g).besideAll gs := rfl

/-- **Any number of diagrams side by side** are within the sum of their spans. -/
theorem FittedWithin.besideAll {gs : List (Diagram α)} (hf : FittedWithin m f)
    (hgs : ∀ g ∈ gs, g.Fitted ∧ g.DegreesHold)
    (hroom : Words.Holds (m + (gs.map span).sum)) :
    (f.besideAll gs = letI := Unlimited.words; f.besideAll gs) ∧
      FittedWithin (m + (gs.map span).sum) (letI _ := Unlimited.words; f.besideAll gs) := by
  induction gs generalizing f m with
  | nil => exact ⟨rfl, hf⟩
  | cons g gs ih =>
    obtain ⟨⟨hfitted, hdegrees⟩, hgs⟩ := List.forall_mem_cons.1 hgs
    have hg : FittedWithin g.span g := ⟨hfitted, hdegrees, Nat.le_refl _⟩
    rw [List.map_cons, List.sum_cons, ← Nat.add_assoc] at hroom ⊢
    obtain ⟨heq, hwithin⟩ := ih (hf.beside hg) hgs hroom
    refine ⟨?_, hwithin⟩
    rw [besideAll_cons, hf.beside_eq hg (hroom.mono (Nat.le_add_right _ _)), heq]
    rfl

theorem fittedWithin_empty : FittedWithin 0 (empty : Diagram α) := by
  refine ⟨Orderly.empty.fitted, fun k hk => ?_, Nat.le_refl 0⟩
  cases hk

theorem parallel_spec {gs : List (Diagram α)} (hgs : ∀ g ∈ gs, g.Fitted ∧ g.DegreesHold)
    (hroom : Words.Holds (gs.map span).sum) :
    (parallel gs = letI := Unlimited.words; parallel gs) ∧
      FittedWithin (gs.map span).sum (letI _ := Unlimited.words; parallel gs) := by
  have hspec := fittedWithin_empty.besideAll hgs (by rwa [Nat.zero_add])
  rwa [Nat.zero_add] at hspec

theorem FittedWithin.tensor_spec (hf : FittedWithin m f) (hg : FittedWithin n g)
    (hroom : Words.Holds (m + n)) :
    (f.tensor g = letI := Unlimited.words; f.tensor g) ∧
      FittedWithin (m + n) (letI _ := Unlimited.words; f.tensor g) := by
  have hspans : ([f, g].map span).sum ≤ m + n := by
    have hf := hf.span_le
    have hg := hg.span_le
    simp only [List.map_cons, List.map_nil, List.sum_cons, List.sum_nil]
    omega
  have hboth : ∀ h ∈ [f, g], h.Fitted ∧ h.DegreesHold :=
    List.forall_mem_cons.2 ⟨⟨hf.fitted, hf.degrees⟩, List.forall_mem_singleton.2
      ⟨hg.fitted, hg.degrees⟩⟩
  obtain ⟨heq, hwithin⟩ := parallel_spec hboth (hroom.mono hspans)
  exact ⟨heq, hwithin.mono hspans⟩

end Wiring.Diagram
