import Wiring.Proofs.Circuit.Associativity
import Wiring.Proofs.Diagram.SideBySide

/-!
# Composites pass the check

Composition does not check what it makes. It need not: circuits that pass the check, side by side or
one after the other, make a circuit that passes. The check looks neither at the ids nor at the next
id, so that ids may be changed until nothing stands in the way of what is known of sound circuits.

## Main definitions

- `Circuit.Checked` — passes the check, and has nothing to hide that the check does not look at
- `Circuit.Proper` — what it is to pass the check, part by part

## Main statements

- `Circuit.Checked.of_isomorphic` — ids make no difference to the check
- `Circuit.Checked.beside`, `Circuit.Checked.weld` — circuits put together
- `Circuit.Checked.proper` — what the check says about inner nodes
- `Circuit.composites_pass_check`
-/

namespace Wiring

open scoped Unlimited

namespace Circuit

open Diagram (IsArrow FittedWithin Isomorphic Renames Welds Beside)

variable {f g h u : Circuit} {φ : Nat → Nat} {ps : List Nat} {k n : Nat}

/-- **A circuit that passes the check**, without edges that are counted zero times and repeated
    terminals. Nothing is said of its next id. -/
structure Checked [Words] (g : Circuit) : Prop where
  isWellFormed : Circuit.isWellFormed g = true
  positive : g.Positive
  nodup_inputs : g.inputs.Nodup
  nodup_outputs : g.outputs.Nodup

instance [Words] (g : Circuit) : Decidable g.Checked :=
  decidable_of_iff (Circuit.isWellFormed g = true ∧ Diagram.Positive g ∧ g.inputs.Nodup ∧
    g.outputs.Nodup) ⟨fun ⟨h₁, h₂, h₃, h₄⟩ => ⟨h₁, h₂, h₃, h₄⟩, fun h => ⟨h.1, h.2, h.3, h.4⟩⟩

/-- **What passing the check means**: stripping finds no cycle, every inner node has the arity of
    its gate, and variables stand at terminals only. -/
structure Proper [Words] (g : Circuit) : Prop extends Checked g where
  acyclic : g.isCyclic = .ok false
  gate : ∀ k n, g.node? k = some n → k ∉ g.inputs → k ∉ g.outputs → gateOk n = true
  not_free : ∀ k name, g.label? k = some (.free name) → k ∈ g.inputs ∨ k ∈ g.outputs

section Words

variable [Words] (hdegrees : g.DegreesHold)
include hdegrees

/-- Words that hold the degrees make no difference to the check. -/
theorem checked_iff_of_degreesHold : g.Checked ↔ letI := Unlimited.words; g.Checked := by
  constructor
  · rintro ⟨hwf, hpositive, hnodup, hnodup'⟩
    rw [isWellFormed_eq hdegrees] at hwf
    exact @Checked.mk Unlimited.words _ hwf hpositive hnodup hnodup'
  · rintro ⟨hwf, hpositive, hnodup, hnodup'⟩
    rw [← isWellFormed_eq hdegrees] at hwf
    exact ⟨hwf, hpositive, hnodup, hnodup'⟩

theorem proper_of_degreesHold (hg : letI := Unlimited.words; g.Proper) : g.Proper := by
  obtain ⟨hchecked, hacyclic, hgate, hfree⟩ := hg
  refine ⟨(checked_iff_of_degreesHold hdegrees).2 hchecked, hdegrees.isCyclic_eq.trans hacyclic,
    fun k n hn hin hout => ?_, hfree⟩
  rw [gateOk_eq hdegrees (IdMap.mem_values_iff.2 ⟨k, hn⟩)]
  exact hgate k n hn hin hout

end Words

theorem checked_iff : g.Checked ↔ IsArrow g ∧ g.Acyclic ∧
    ∀ k label, g.label? k = some label → k ∉ g.inputs → k ∉ g.outputs →
      label.Allows (g.above k).length (g.below k).length ∧
        (label.hasResult = true → g.below k ≠ []) := by
  constructor
  · intro h
    obtain ⟨hdiag, hacyclic, hgate⟩ := (isWellFormed_iff h.positive).1 h.isWellFormed
    exact ⟨⟨hdiag, h.positive, h.nodup_inputs, h.nodup_outputs⟩, hacyclic, hgate⟩
  · rintro ⟨harr, hacyclic, hgate⟩
    exact ⟨(isWellFormed_iff harr.positive).2 ⟨harr.isWellFormed, hacyclic, hgate⟩, harr.positive,
      harr.nodup_inputs, harr.nodup_outputs⟩

theorem Sound.checked (hg : g.Sound) : g.Checked :=
  ⟨hg.isWellFormed, hg.positive, hg.nodup_inputs, hg.nodup_outputs⟩

namespace Checked

theorem isArrow (hg : g.Checked) : IsArrow g := (checked_iff.1 hg).1

theorem fitted (hg : g.Checked) : g.Fitted :=
  hg.isArrow.fitted

theorem proper (hg : g.Checked) : g.Proper := by
  obtain ⟨harr, hacyclic, hgate⟩ := checked_iff.1 hg
  obtain ⟨cyclic, hval, hiff⟩ := harr.coherent.exists_isCyclic
  refine ⟨hg, hiff.2 hacyclic ▸ hval, fun k n hn hin hout => ?_, fun k name hl => ?_⟩
  · have hok := hgate k n.label (by rw [Diagram.label?, hn]; rfl) hin hout
    rw [Diagram.length_above_of_node? hn, Diagram.length_below_of_node? hn, ne_eq,
      Diagram.below_eq_nil_iff hn] at hok
    exact gateOk_iff.2 hok
  · by_contra hterm
    rw [not_or] at hterm
    exact (hgate k _ hl hterm.1 hterm.2).1

/-- A circuit that passes the check is sound once its next id is raised. -/
theorem sound (hg : g.Checked) (hn : ∀ k ∈ g.ids, k < n) : Sound { g with nextId := n } := by
  obtain ⟨harr, hacyclic, hgate⟩ := checked_iff.1 hg
  have hraised : IsArrow { g with nextId := n } :=
    ⟨harr.isWellFormed, harr.positive, harr.nodup_inputs, harr.nodup_outputs⟩
  have hchecked : Checked { g with nextId := n } := checked_iff.2 ⟨hraised, hacyclic, hgate⟩
  exact ⟨hchecked.isWellFormed, fun k hk => hn k (Diagram.mem_ids.2 hk), hg.positive,
    hg.nodup_inputs, hg.nodup_outputs⟩

/-- **The check does not look at ids.** -/
theorem of_isomorphic (hg : g.Checked) (hh : h.Coherent) (hgh : Isomorphic g h) : h.Checked := by
  obtain ⟨harr, ⟨r, hr⟩, hgate⟩ := checked_iff.1 hg
  obtain ⟨φ, hφ⟩ := hgh
  have hinv := hφ.bijOn.invOn_invFunOn.1
  refine checked_iff.2 ⟨hφ.isArrow harr hh,
    ⟨r ∘ Function.invFunOn φ {k | Diagram.contains g k = true}, fun u v hu => ?_⟩, ?_⟩
  · obtain ⟨k, hk, rfl⟩ := hφ.exists_eq (Diagram.contains_of_mem_above hu)
    obtain ⟨i, hi, rfl⟩ := List.mem_map.1 ((hφ.above k hk).mem_iff.1 hu)
    have hki := harr.coherent.contains_of_mem_above hi
    rw [Function.comp_apply, Function.comp_apply, hinv hki, hinv hk]
    exact hr i k hi
  · intro j label hl hin hout
    obtain ⟨k, hk, rfl⟩ := hφ.exists_eq (Diagram.contains_iff_label?.2 ⟨label, hl⟩)
    rw [hφ.label k hk] at hl
    rw [hφ.inputs, hφ.mem_map hk harr.contains_of_mem_inputs] at hin
    rw [hφ.outputs, hφ.mem_map hk harr.contains_of_mem_outputs] at hout
    have habove := (hφ.above k hk).length_eq
    have hbelow := (hφ.below k hk).length_eq
    rw [List.length_map] at habove hbelow
    rw [habove, hbelow, ← List.length_pos_iff, hbelow, List.length_pos_iff]
    exact hgate k label hl hin hout

theorem shift (hg : g.Checked) (d : Nat) : Checked (g.shift d) :=
  hg.of_isomorphic (hg.isArrow.coherent.shift d) ⟨_, Diagram.renames_shift hg.isArrow.coherent d⟩

/-! ## Side by side -/

theorem beside (hb : Beside f g u) (hf : f.Checked) (hg : g.Checked) : u.Checked := by
  obtain ⟨n, hn⟩ := Diagram.exists_bound u.ids
  have hbound {k : Nat} (hk : f.contains k = true ∨ g.contains k = true) : k < n :=
    hn k (Diagram.mem_ids.2 (hb.contains_iff.2 hk))
  have hraised : Beside { f with nextId := n } { g with nextId := n } { u with nextId := n } :=
    ⟨⟨hb.nodes, hb.apart⟩, hb.inputs, hb.outputs, Nat.le_refl n, Nat.le_refl n⟩
  have hsound := Sound.beside hraised (hf.sound fun k hk => hbound (.inl (Diagram.mem_ids.1 hk)))
    (hg.sound fun k hk => hbound (.inr (Diagram.mem_ids.1 hk)))
  have hcoherent : u.Coherent := hb.coherent hf.isArrow.coherent hg.isArrow.coherent
  exact hsound.checked.of_isomorphic hcoherent ⟨_, hcoherent.renames_raised n⟩

theorem besideAll (hf : f.Checked) {gs : List Circuit} (hgs : ∀ g ∈ gs, g.Checked) :
    Checked (f.besideAll gs) := by
  induction gs generalizing f with
  | nil => exact hf
  | cons g gs ih =>
    have hg := hgs g List.mem_cons_self
    have hstep : Checked (f.beside g) :=
      hf.beside (Diagram.beside_beside hg.isArrow.coherent.id_eq) (hg.shift _)
    exact ih hstep fun h hh => hgs h (List.mem_cons_of_mem _ hh)

/-! ## One after the other -/

theorem cleared (hg : g.Checked) : Checked (cleared g) := by
  obtain ⟨harr, hacyclic, hgate⟩ := checked_iff.1 hg
  refine checked_iff.2 ⟨isArrow_cleared harr, hacyclic.of_subset fun u v hu => ?_, ?_⟩
  · rwa [above_cleared] at hu
  · intro k label hl hin hout
    rw [inputs_cleared] at hin
    rw [outputs_cleared] at hout
    rw [label?_cleared_of_not_mem hin] at hl
    rw [above_cleared, below_cleared]
    exact hgate k label hl hin hout

/-- Inputs that are plain wires may become inner nodes. -/
theorem weld (hw : Welds f ps g) (hcopy : ∀ i ∈ g.inputs, g.label? i = some .copy)
    (hf : f.Checked) (hg : g.Checked) : Checked (f.weld ps g) := by
  obtain ⟨n, hn⟩ := Diagram.exists_bound f.ids
  obtain ⟨m, hm⟩ := Diagram.exists_bound g.ids
  have hraised : Welds { f with nextId := n } ps { g with nextId := m } :=
    ⟨⟨hw.left.id_eq, hw.left.positive, hw.left.agree⟩,
      ⟨hw.right.id_eq, hw.right.positive, hw.right.agree⟩, hw.apart, hw.inputs_left,
      hw.inputs_right, hw.outputs_left, hw.nodup_inputs, hw.nodup_outputs, hw.feed, hw.length_eq⟩
  have hsound := Sound.weld hraised hcopy (hf.sound hn) (hg.sound hm)
  exact hsound.checked.of_isomorphic hw.coherent
    ⟨_, hraised.renames hw (hw.left.renames_raised n) (hw.right.renames_raised m)
      hf.isArrow.contains_of_mem_inputs hg.isArrow.contains_of_mem_outputs⟩

theorem exists_compose (hf : f.Checked) (hg : g.Checked)
    (hlength : f.outputs.length = g.inputs.length) : ∃ h, compose f g = .ok h ∧ h.Checked := by
  have hcleared := hg.cleared
  have hfit : f.target = (Circuit.cleared g).source :=
    hlength.trans (congrArg List.length inputs_cleared).symm
  obtain ⟨ps, hcompose, hw⟩ := hf.isArrow.compose_eq_ok hcleared.isArrow hfit
  have hcopy := fun i hi => label?_apartFrom hg.isArrow.coherent hg.nodup_inputs
    hg.isArrow.contains_of_mem_inputs f (i := i) hi
  exact ⟨_, (compose_eq hg.isArrow.contains_of_mem_inputs).trans hcompose,
    weld hw hcopy hf (hcleared.shift _)⟩

end Checked

theorem checked_empty : Checked (Diagram.empty : Circuit) := by decide +kernel

section Machine

open scoped Machine

end Machine

end Circuit

end Wiring
