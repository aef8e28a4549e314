import Wiring.Proofs.Circuit.Copies
import Wiring.Proofs.Diagram.Gluing
import Wiring.Proofs.Diagram.Wires

/-!
# Glued circuits

Sound circuits that are glued make a sound circuit, if the inputs of the second are plain wires. The
values of both circuits are the values of the whole as soon as they agree where it is glued.

## Main statements

- `Circuit.Lax.weld`, `Circuit.Tight.weld`, `Circuit.Grounded.weld` — what gluing keeps
- `Circuit.Obeys.weld` — the values of a glued circuit
-/

namespace Wiring

open scoped Unlimited

namespace Circuit

variable {f g u : Circuit} {ps : List Nat} {τ τ' : Nat → Bool} {k : Nat}

/-! ## Side by side -/

section Beside

variable (hb : Diagram.Beside f g u)
include hb

theorem Lax.beside (hf : f.Lax) (hg : g.Lax) : u.Lax where
  coherent := hb.coherent hf.coherent hg.coherent
  idsBelow := hb.idsBelow hf.idsBelow hg.idsBelow
  nodup_inputs := hb.inputs ▸ hb.nodup_append hf.nodup_inputs hg.nodup_inputs
    (fun _ hi => hf.contains_of_mem_inputs hi) fun _ hi => hg.contains_of_mem_inputs hi
  nodup_outputs := hb.outputs ▸ hb.nodup_append hf.nodup_outputs hg.nodup_outputs
    (fun _ ho => hf.contains_of_mem_outputs ho) fun _ ho => hg.contains_of_mem_outputs ho
  input i hi := by
    rw [hb.inputs, List.mem_append] at hi
    rcases hi with hi | hi
    · have hc := hf.contains_of_mem_inputs hi
      rw [hb.contains_iff, hb.above_left hc, hb.below_left hc]
      exact ⟨.inl hc, (hf.input i hi).2⟩
    · have hc := hg.contains_of_mem_inputs hi
      rw [hb.contains_iff, hb.symm.above_left hc, hb.symm.below_left hc]
      exact ⟨.inr hc, (hg.input i hi).2⟩
  output o ho := by
    rw [hb.outputs, List.mem_append] at ho
    rcases ho with ho | ho
    · have hc := hf.contains_of_mem_outputs ho
      rw [hb.contains_iff, hb.above_left hc, hb.below_left hc]
      exact ⟨.inl hc, (hf.output o ho).2⟩
    · have hc := hg.contains_of_mem_outputs ho
      rw [hb.contains_iff, hb.symm.above_left hc, hb.symm.below_left hc]
      exact ⟨.inr hc, (hg.output o ho).2⟩
  acyclic := hb.acyclic hf.acyclic hg.acyclic hf.coherent hg.coherent
  gate k label hl hin hout := by
    rw [hb.inputs, List.mem_append, not_or] at hin
    rw [hb.outputs, List.mem_append, not_or] at hout
    rcases hb.label?_cases hl with ⟨hk, hl⟩ | ⟨hk, hl⟩
    · rw [hb.above_left hk, hb.below_left hk]
      exact hf.gate k label hl hin.1 hout.1
    · rw [hb.symm.above_left hk, hb.symm.below_left hk]
      exact hg.gate k label hl hin.2 hout.2

theorem Sound.beside (hf : f.Sound) (hg : g.Sound) : u.Sound := by
  refine sound_iff.2 ⟨Lax.beside hb hf.lax hg.lax, ?_⟩
  intro k label hl hout hres
  rw [hb.outputs, List.mem_append, not_or] at hout
  rw [hb.inputs, List.mem_append] at hres
  -- an input of one side is no node of the other
  have hleft (hk : f.contains k = true) : k ∉ g.inputs := fun hi => by
    have := hg.lax.contains_of_mem_inputs hi
    rw [hb.apart k hk] at this
    cases this
  have hright (hk : g.contains k = true) : k ∉ f.inputs := fun hi => by
    rw [hb.apart k (hf.lax.contains_of_mem_inputs hi)] at hk
    cases hk
  rcases hb.label?_cases hl with ⟨hk, hl⟩ | ⟨hk, hl⟩
  · rw [hb.below_left hk]
    exact hf.tight k label hl hout.1 (hres.imp_left fun hi => hi.resolve_right (hleft hk))
  · rw [hb.symm.below_left hk]
    exact hg.tight k label hl hout.2 (hres.imp_left fun hi => hi.resolve_left (hright hk))

theorem Grounded.beside (hf : f.Grounded) (hg : g.Grounded) : u.Grounded := by
  intro k v hl hout
  rw [hb.outputs, List.mem_append, not_or] at hout
  rcases hb.label?_cases hl with ⟨hk, hl⟩ | ⟨hk, hl⟩
  · rw [hb.above_left hk]
    exact hf k v hl hout.1
  · rw [hb.symm.above_left hk]
    exact hg k v hl hout.2

end Beside

/-! ## Wires -/

theorem sound_wire (i : Nat) : Sound (Diagram.wire i) := by
  have habove : Diagram.above (Diagram.wire i : Circuit) i = [] := by
    rw [Diagram.above_wire, if_neg (by omega)]
  have hbelow : Diagram.below (Diagram.wire i : Circuit) (i + 1) = [] := by
    rw [Diagram.below_wire, if_neg (by omega)]
  refine sound_iff.2 ⟨⟨Diagram.coherent_wire i, Diagram.idsBelow_wire i, List.nodup_singleton i,
    List.nodup_singleton (i + 1), ?_, ?_, Diagram.acyclic_wire i, ?_⟩, ?_⟩
  · intro k hk
    obtain rfl := List.mem_singleton.1 hk
    rw [Diagram.contains_wire, habove, Diagram.below_wire, if_pos rfl]
    exact ⟨.inl rfl, rfl, Nat.le_refl 1⟩
  · intro k hk
    obtain rfl := List.mem_singleton.1 hk
    rw [Diagram.contains_wire, hbelow, Diagram.above_wire, if_pos rfl]
    exact ⟨.inr rfl, rfl, rfl⟩
  · intro k label hl hin hout
    rcases Diagram.contains_wire.1 (Diagram.contains_iff_label?.2 ⟨label, hl⟩) with rfl | rfl
    · exact absurd List.mem_cons_self hin
    · exact absurd List.mem_cons_self hout
  · intro k label hl hout hres
    rcases Diagram.contains_wire.1 (Diagram.contains_iff_label?.2 ⟨label, hl⟩) with rfl | rfl
    · rw [Diagram.below_wire, if_pos rfl]
      exact List.cons_ne_nil _ _
    · exact absurd List.mem_cons_self hout

theorem grounded_wire (i : Nat) : Grounded (Diagram.wire i) := by
  intro k v hl
  cases Diagram.label?_wire hl

/-- Bare wires are sound, and each output is fed by its input. -/
theorem identity_spec (n : Nat) : Sound (Diagram.identity n) ∧ Grounded (Diagram.identity n) ∧
    (Diagram.identity n : Circuit).outputs.map (Diagram.identity n : Circuit).above =
      (Diagram.identity n : Circuit).inputs.map ([·]) := by
  induction n with
  | zero =>
    have hsound : Sound (Diagram.identity 0) := by decide +kernel
    have hground : Grounded (Diagram.identity 0) := by decide +kernel
    exact ⟨hsound, hground, rfl⟩
  | succ n ih =>
    obtain ⟨hsound, hground, hfeed⟩ := ih
    have hb := Diagram.beside_addWire hsound.idsBelow
    exact ⟨Sound.beside hb hsound (sound_wire _), Grounded.beside hb hground (grounded_wire _),
      Diagram.feed_addWire hsound.idsBelow
        (fun _ ho => hsound.lax.contains_of_mem_outputs ho) hfeed⟩

/-! ## One after the other -/

theorem Lax.welds (hf : f.Lax) (hg : g.Lax)
    (hapart : ∀ k, f.contains k = true → g.contains k = false)
    (hfeed : f.outputs.map f.above = ps.map ([·])) (hlength : f.outputs.length = g.inputs.length) :
    Diagram.Welds f ps g where
  left := hf.coherent
  right := hg.coherent
  apart := hapart
  inputs_left i hi := (hf.input i hi).2.1
  inputs_right i hi := ⟨(hg.input i hi).1, (hg.input i hi).2.1⟩
  outputs_left o ho := (hf.output o ho).2.1
  nodup_inputs := hg.nodup_inputs
  nodup_outputs := hf.nodup_outputs
  feed := hfeed
  length_eq := by
    have := congrArg List.length hfeed
    rw [List.length_map, List.length_map] at this
    omega

theorem eq_of_mem_zip {l l' : List Nat} (h : l.map τ = l'.map τ) {a b : Nat}
    (hmem : (a, b) ∈ l.zip l') : τ a = τ b := by
  induction l generalizing l' with
  | nil => cases hmem
  | cons x l ih =>
    cases l' with
    | nil => cases hmem
    | cons y l' =>
      rw [List.map_cons, List.map_cons, List.cons.injEq] at h
      rw [List.zip_cons_cons, List.mem_cons, Prod.mk.injEq] at hmem
      rcases hmem with ⟨rfl, rfl⟩ | hmem
      · exact h.1
      · exact ih h.2 hmem

section Weld

variable (hw : Diagram.Welds f ps g) (hcopy : ∀ i ∈ g.inputs, g.label? i = some .copy)
include hw hcopy

theorem Lax.weld (hf : f.Lax) (hg : g.Lax) : Lax (f.weld ps g) where
  coherent := hw.coherent
  idsBelow := hw.idsBelow hf.idsBelow hg.idsBelow
  nodup_inputs := hw.inputs_weld ▸ hf.nodup_inputs
  nodup_outputs := hg.nodup_outputs
  input i hi := by
    rw [hw.inputs_weld] at hi
    obtain ⟨hif, habove, hbelow⟩ := hf.input i hi
    have hout := hf.not_mem_outputs_of_input hi
    have hperm := hw.above_left hif hout
    rw [habove] at hperm
    refine ⟨hw.contains_weld.2 (.inl ⟨hif, hout⟩), hperm.eq_nil, ?_⟩
    rw [hw.length_below_left hif hout]
    exact hbelow
  output o ho := by
    obtain ⟨hog, hbelow, habove⟩ := hg.output o ho
    have hperm := hw.below_right hog
    rw [hbelow] at hperm
    refine ⟨hw.contains_weld.2 (.inr hog), hperm.eq_nil, ?_⟩
    rw [(hw.above_right hog (hg.not_mem_inputs_of_output ho)).length_eq]
    exact habove
  acyclic := hw.acyclic hf.acyclic hg.acyclic
  gate k label hl hin hout := by
    rw [hw.inputs_weld] at hin
    rcases hw.contains_weld.1 (Diagram.contains_iff_label?.2 ⟨label, hl⟩) with ⟨hkf, hkout⟩ | hkg
    · rw [hw.label?_weld_left hkf hkout] at hl
      rw [(hw.above_left hkf hkout).length_eq, hw.length_below_left hkf hkout]
      exact hf.gate k label hl hin hkout
    · rw [hw.label?_weld_right hkg] at hl
      by_cases hkin : k ∈ g.inputs
      · -- where the circuits are glued there is a wire from one to the other
        obtain ⟨p, hp⟩ := hw.exists_feeder hkin
        obtain rfl : Gate.copy = label := Option.some.inj ((hcopy k hkin).symm.trans hl)
        rw [hw.above_input hp]
        rfl
      · rw [(hw.above_right hkg hkin).length_eq, (hw.below_right hkg).length_eq]
        exact hg.gate k label hl hkin hout

omit hcopy in
theorem Tight.weld (hf : f.Tight) (hg : g.Tight) (hlax : f.Lax) : Tight (f.weld ps g) := by
  intro k label hl hout hres
  rw [hw.inputs_weld] at hres
  rcases hw.contains_weld.1 (Diagram.contains_iff_label?.2 ⟨label, hl⟩) with ⟨hkf, hkout⟩ | hkg
  · rw [hw.label?_weld_left hkf hkout] at hl
    rw [← List.length_pos_iff, hw.length_below_left hkf hkout, List.length_pos_iff]
    exact hf k label hl hkout hres
  · rw [hw.label?_weld_right hkg] at hl
    rw [← List.length_pos_iff, (hw.below_right hkg).length_eq, List.length_pos_iff]
    refine hg k label hl hout (.inr (hres.resolve_left ?_))
    intro hin
    rw [hw.apart k (hlax.contains_of_mem_inputs hin)] at hkg
    cases hkg

theorem Sound.weld (hf : f.Sound) (hg : g.Sound) : Sound (f.weld ps g) :=
  sound_iff.2 ⟨Lax.weld hw hcopy hf.lax hg.lax, Tight.weld hw hf.tight hg.tight hf.lax⟩

theorem Grounded.weld (hf : f.Grounded) (hg : g.Grounded) : Grounded (f.weld ps g) := by
  intro k v hl hout
  rcases hw.contains_weld.1 (Diagram.contains_iff_label?.2 ⟨_, hl⟩) with ⟨hkf, hkout⟩ | hkg
  · rw [hw.label?_weld_left hkf hkout] at hl
    have hperm := hw.above_left hkf hkout
    rw [hf k v hl hkout] at hperm
    exact hperm.eq_nil
  · rw [hw.label?_weld_right hkg] at hl
    have hin : k ∉ g.inputs := fun hin => by
      rw [hcopy k hin] at hl
      cases hl
    have hperm := hw.above_right hkg hin
    rw [hg k v hl hout] at hperm
    exact hperm.eq_nil

/-- **Values of both circuits that agree where these are glued are values of the whole.** -/
theorem Obeys.weld (hf : Obeys f τ) (hg : Obeys g τ) (hg' : g.Lax)
    (hjoint : f.outputs.map τ = g.inputs.map τ) : Obeys (f.weld ps g) τ := by
  constructor
  · intro o ho
    have hog : g.contains o = true := (hg'.output o ho).1
    have hperm := hw.above_right hog (hg'.not_mem_inputs_of_output ho)
    rw [hg.output o ho, Gate.sole_perm (hperm.map τ)]
  · intro k label hl hin hout
    rw [hw.inputs_weld] at hin
    rcases hw.contains_weld.1 (Diagram.contains_iff_label?.2 ⟨label, hl⟩) with ⟨hkf, hkout⟩ | hkg
    · rw [hw.label?_weld_left hkf hkout] at hl
      rw [hf.gate k label hl hin hkout, Gate.truth_perm ((hw.above_left hkf hkout).map τ)]
    · rw [hw.label?_weld_right hkg] at hl
      by_cases hkin : k ∈ g.inputs
      · obtain ⟨p, hp⟩ := hw.exists_feeder hkin
        obtain rfl : Gate.copy = label := Option.some.inj ((hcopy k hkin).symm.trans hl)
        rw [hw.above_input hp]
        show τ k = τ p
        -- `p` feeds an output, and this has the value of the input that is glued to it
        exact (eq_of_mem_zip ((hf.map_feed hw.feed).symm.trans hjoint) hp).symm
      · rw [hg.gate k label hl hkin hout, Gate.truth_perm ((hw.above_right hkg hkin).map τ)]

end Weld

end Circuit

end Wiring
