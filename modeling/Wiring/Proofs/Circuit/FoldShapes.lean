import Wiring.Proofs.Circuit.Folds
import Wiring.Proofs.Circuit.Reshaping

/-!
# The shape of a fold

Every fold is a local change. Where a source goes, all that has to be looked at is the gate that it
fed; the new nodes on the edges of that gate make up for the edges that were severed.

## Main statements

- `Circuit.Feeds.reshapes` — when removing a source is part of a local change
- `Circuit.Folds.reshapes` — every fold is a local change
-/

namespace Wiring

open scoped Unlimited

theorem Gate.isVariadic_of_neutral? {gate : Gate} {v : Bool} (h : gate.neutral? = some v) :
    gate.isVariadic = true := by
  cases gate <;> first | rfl | cases h

theorem Gate.isVariadic_of_absorbing? {gate : Gate} {v : Bool} (h : gate.absorbing? = some v) :
    gate.isVariadic = true := by
  cases gate <;> first | rfl | cases h

namespace Circuit

variable {g h : Circuit} {s c k : Nat} {v : Bool} {label : Gate}

theorem length_filter_ne (l : List Nat) (i : Nat) :
    (l.filter (· != i)).length + l.count i = l.length := by
  induction l with
  | nil => rfl
  | cons j l ih =>
    by_cases hj : j = i
    · subst hj
      simp only [List.filter_cons, bne_self_eq_false, Bool.false_eq_true, if_false,
        List.count_cons_self, List.length_cons]
      omega
    · simp only [List.filter_cons, bne_iff_ne.2 hj, if_true, List.count_cons_of_ne hj,
        List.length_cons]
      omega

theorem weightAt_eq_weight (hk : g.label? k = some label) :
    g.weightAt k = label.weight (g.above k).length (g.below k).length := by
  rw [weightAt, hk]
  rfl

theorem weightAt_eq_zero (hk : g.label? k = none) : g.weightAt k = 0 := by
  rw [weightAt, hk]
  rfl

/-! ## Where a source goes -/

namespace Feeds

variable (hf : Feeds g s v c) (hg : g.Lax)
include hf hg

omit hg in
theorem length_above_target (hg : g.Coherent) :
    ((g.removeNode s).above c).length + 1 = (g.above c).length := by
  have hone : (g.above c).count s = 1 := by
    rw [hg.agree, hf.below]
    exact List.count_singleton_self
  rw [hf.above_target_removeNode hg, ← hone, length_filter_ne]

/-- **Removing a source is local**, if apart from the gate that it fed nothing else changes. -/
theorem reshapes (hcoh : h.Coherent) (hids : h.IdsBelow) (hacyclic : h.Acyclic)
    (hnext : g.nextId ≤ h.nextId) (hin : h.inputs = (g.removeNode s).inputs)
    (hout : h.outputs = (g.removeNode s).outputs)
    (hlabel : ∀ k < g.nextId, k ≠ c → h.label? k = (g.removeNode s).label? k)
    (habove : ∀ k, (g.removeNode s).contains k = true → k ≠ c →
      (h.above k).length = ((g.removeNode s).above k).length)
    (hbelow : ∀ k, (g.removeNode s).contains k = true →
      (h.below k).length = ((g.removeNode s).below k).length)
    (htarget : ∀ label, h.label? c = some label →
      label.value?.isSome = true ∧ h.above c = [] ∨
        label.isVariadic = true ∧ g.label? c = some label)
    (hfresh : ∀ k, g.nextId ≤ k → ∀ label, h.label? k = some label →
      IsFresh label (h.above k).length (h.below k).length)
    (hweight : h.weightAt c + (h.nextId - g.nextId) ≤ g.weightAt c) :
    Reshapes g h {s, c} := by
  have hsc := hf.ne hg.coherent
  have hs : s < g.nextId := hg.idsBelow s hf.contains_source
  have hgone : h.label? s = none := by
    rw [hlabel s hs hsc, Diagram.label?_removeNode, if_pos rfl]
  have hmem (k : Nat) : k ∈ ({s, c} : Finset Nat) ↔ k = s ∨ k = c := by simp
  refine
    { coherent := hcoh
      idsBelow := hids
      acyclic := hacyclic
      nextId_le := hnext
      inputs_sublist := ?_
      mem_inputs := ?_
      outputs_eq := hout.trans (hf.outputs_removeNode hg)
      touched_old := ?_
      label_eq := ?_
      length_eq := ?_
      touched := ?_
      touched_input := ?_
      fresh := hfresh
      lighter := ?_ }
  · rw [hin, hf.inputs_removeNode]
    exact List.filter_sublist
  · intro k
    rw [hin, hf.inputs_removeNode, List.mem_filter, bne_iff_ne]
    apply and_congr_right
    intro hk
    -- an input has no parents, so the gate that the source fed is none
    have hkc : k ≠ c := fun h => hf.not_input hg (h ▸ hk)
    rw [Diagram.contains_iff_label?,
      hlabel k (hg.idsBelow k (hg.contains_of_mem_inputs hk)) hkc, ← Diagram.contains_iff_label?,
      Diagram.contains_removeNode_iff]
    exact (and_iff_right (hg.contains_of_mem_inputs hk)).symm
  · intro k hk
    rcases (hmem k).1 hk with rfl | rfl
    · exact ⟨hs, hf.source_not_output hg⟩
    · exact ⟨hg.idsBelow k (hf.contains_target hg.coherent), hf.notOutput⟩
  · intro k hk hT
    rw [hmem, not_or] at hT
    rw [hlabel k hk hT.2, Diagram.label?_removeNode, if_neg hT.1]
  · intro k hk hT
    rw [hmem, not_or] at hT
    have hk' := Diagram.contains_removeNode_iff.2 ⟨hk, hT.1⟩
    rw [habove k hk' hT.2, hbelow k hk', hf.above_removeNode hg.coherent hT.1 hT.2,
      hf.below_removeNode hg.coherent hT.1]
    exact ⟨rfl, rfl⟩
  · intro k hk label hl
    rcases (hmem k).1 hk with rfl | rfl
    · rw [hgone] at hl
      cases hl
    · refine ⟨?_, (htarget label hl).imp_right fun ⟨hv, hlg⟩ => ⟨hv, hlg, hf.not_input hg⟩⟩
      rw [hbelow k (hf.contains_removeNode_target hg.coherent),
        hf.below_removeNode hg.coherent hsc.symm]
  · intro k hk hi
    rw [hin, hf.inputs_removeNode, List.mem_filter, bne_iff_ne] at hi
    exact absurd hi.1 (((hmem k).1 hk).resolve_left hi.2 ▸ hf.not_input hg)
  · have hone : g.weightAt s = 1 := by
      rw [weightAt_eq_weight hf.label, hf.above, hf.below]
      rfl
    rw [Finset.sum_pair hsc, Finset.sum_pair hsc, weightAt_eq_zero hgone, hone]
    omega

end Feeds

/-! ## The folds -/

theorem Feeds.reshapes_resolve (hf : Feeds g s v c) (hg : g.Lax) (hc : g.label? c = some label)
    (hlabel : label = .copy ∨ label = .not) (w : Bool) :
    Reshapes g ((g.relabel c (.const w)).removeNode s) {s, c} := by
  have hcs := (hf.ne hg.coherent).symm
  have hcoh := hg.coherent.removeNode s
  have hids := hg.idsBelow.removeNode s
  have hnew : ((g.removeNode s).relabel c (.const w)).label? c = some (.const w) :=
    Diagram.label?_relabel_self (hf.contains_removeNode_target hg.coherent)
  have hnil : (g.removeNode s).above c = [] := by
    rw [hf.above_target_removeNode hg.coherent, hf.above_eq hg hc hlabel]
    simp
  have hnext : ((g.removeNode s).relabel c (.const w)).nextId = g.nextId :=
    Diagram.nextId_removeNode
  rw [hg.coherent.relabel_removeNode]
  refine hf.reshapes hg (hcoh.relabel c _) (hids.relabel c _)
    ((hg.acyclic.removeNode hg.coherent s).relabel c _) (Nat.le_of_eq hnext.symm) rfl rfl
    ?_ (fun k _ _ => by rw [Diagram.above_relabel]) (fun k _ => by rw [Diagram.below_relabel])
    ?_ ?_ ?_
  · intro k _ hk
    rw [Diagram.label?_relabel, if_neg hk]
  · intro l hl
    rw [hnew, Option.some.injEq] at hl
    rw [Diagram.above_relabel, hnil, ← hl]
    exact .inl ⟨rfl, rfl⟩
  · intro k hk l hl
    have := (hids.relabel c _) k (Diagram.contains_iff_label?.2 ⟨l, hl⟩)
    omega
  · rw [weightAt_eq_weight hnew, weightAt_eq_weight hc, Diagram.below_relabel,
      hf.below_removeNode hg.coherent hcs, hnext]
    rcases hlabel with rfl | rfl <;> simp [Gate.weight, Gate.isVariadic]

theorem Feeds.reshapes_drop (hf : Feeds g s v c) (hg : g.Lax) (hc : g.label? c = some label)
    (hlabel : label.isVariadic = true) : Reshapes g (g.removeNode s) {s, c} := by
  have hcs := (hf.ne hg.coherent).symm
  have hkept := hf.label?_removeNode_target hg.coherent hc
  refine hf.reshapes hg (hg.coherent.removeNode s) (hg.idsBelow.removeNode s)
    (hg.acyclic.removeNode hg.coherent s) (Nat.le_of_eq Diagram.nextId_removeNode.symm) rfl rfl
    (fun _ _ _ => rfl) (fun _ _ _ => rfl) (fun _ _ => rfl) ?_ ?_ ?_
  · intro l hl
    rw [hkept, Option.some.injEq] at hl
    exact .inr ⟨hl ▸ hlabel, hl ▸ hc⟩
  · intro k hk l hl
    have := (hg.idsBelow.removeNode s) k (Diagram.contains_iff_label?.2 ⟨l, hl⟩)
    rw [Diagram.nextId_removeNode] at this
    omega
  · have hlen := hf.length_above_target hg.coherent
    rw [weightAt_eq_weight hkept, weightAt_eq_weight hc, hf.below_removeNode hg.coherent hcs,
      Diagram.nextId_removeNode, Gate.weight, Gate.weight, if_pos hlabel, if_pos hlabel]
    omega

theorem Feeds.reshapes_absorb (hf : Feeds g s v c) (hg : g.Lax) (hc : g.label? c = some label)
    (hlabel : label.isVariadic = true) {ps : List Nat}
    (hps : ∀ p, p ∈ ps ↔ p ∈ (g.removeNode s).above c) (w : Bool) :
    Reshapes g (((g.removeNode s).divert .copy c ps).relabel c (.const w)) {s, c} := by
  -- the source goes first, then each argument of `c` gets a copy of its own, and `c` its value last
  have hcs := (hf.ne hg.coherent).symm
  have hcoh := hg.coherent.removeNode s
  have hids := hg.idsBelow.removeNode s
  have hacyclic := hg.acyclic.removeNode hg.coherent s
  have hcontains := hf.contains_removeNode_target hg.coherent
  have hcnext : c < g.nextId := hg.idsBelow c (hf.contains_target hg.coherent)
  set mid := (g.removeNode s).divert .copy c ps with hmid
  have hnext : mid.nextId = g.nextId + ((g.removeNode s).above c).length := by
    rw [hmid, Diagram.nextId_divert, Diagram.nextId_removeNode]
  have hold (k : Nat) (hk : k < g.nextId) : mid.label? k = (g.removeNode s).label? k :=
    Diagram.label?_divert (by rwa [Diagram.nextId_removeNode])
  have hnew : (mid.relabel c (.const w)).label? c = some (.const w) :=
    Diagram.label?_relabel_self (hf.contains_divert_target hg.coherent)
  have habove (k : Nat) (hk : (g.removeNode s).contains k = true) :
      (mid.above k).Perm (if k = c then [] else (g.removeNode s).above k) :=
    Diagram.above_divert hcoh hids hacyclic hps .copy hk
  have hbelow (k : Nat) (hk : (g.removeNode s).contains k = true) :
      (mid.below k).length = ((g.removeNode s).below k).length := by
    obtain ⟨new, -, hlen, hperm⟩ := Diagram.below_divert hcoh hids hacyclic hps .copy hk
    rw [hperm.length_eq, List.length_append, hlen, hcoh.agree, length_filter_ne]
  have hin : mid.inputs = (g.removeNode s).inputs := Diagram.inputs_divert
  have hout : mid.outputs = (g.removeNode s).outputs := Diagram.outputs_divert
  refine hf.reshapes hg ((hcoh.divert hids).relabel c _) (hids.divert.relabel c _)
    ((hacyclic.divert hcoh hids).relabel c _) (hnext ▸ Nat.le_add_right _ _)
    hin hout ?_ ?_ ?_ ?_ ?_ ?_
  · intro k hk hkc
    rw [Diagram.label?_relabel, if_neg hkc, hold k hk]
  · intro k hk hkc
    rw [Diagram.above_relabel, (habove k hk).length_eq, if_neg hkc]
  · intro k hk
    rw [Diagram.below_relabel, hbelow k hk]
  · intro l hl
    rw [hnew, Option.some.injEq] at hl
    have := habove c hcontains
    rw [if_pos rfl] at this
    rw [Diagram.above_relabel, this.eq_nil, ← hl]
    exact .inl ⟨rfl, rfl⟩
  · intro k hk l hl
    have hkc : k ≠ c := by omega
    rw [Diagram.label?_relabel, if_neg hkc] at hl
    obtain ⟨p, -, hl', hup, hdown⟩ := Diagram.divert_new (c := c) hcoh hids .copy
      (by rwa [Diagram.nextId_removeNode]) (Diagram.contains_iff_label?.2 ⟨l, hl⟩)
    rw [hl, Option.some.injEq] at hl'
    rw [Diagram.above_relabel, Diagram.below_relabel, hup.length_eq, hdown.length_eq, hl']
    exact .copy
  · -- each argument of the gate weighed two, and the copy that takes its edge weighs one
    have hlen := hf.length_above_target hg.coherent
    have hnext' : (mid.relabel c (.const w)).nextId = mid.nextId := rfl
    rw [weightAt_eq_weight hnew, weightAt_eq_weight hc, Diagram.below_relabel, hbelow c hcontains,
      hf.below_removeNode hg.coherent hcs, hnext', hnext, Gate.weight, Gate.weight, if_pos hlabel]
    have hvar : (Gate.const w).isVariadic = false := rfl
    rw [hvar]
    simp only [Bool.false_eq_true, if_false]
    omega

theorem Feeds.reshapes_negate (hf : Feeds g s v c) (hg : g.Lax) (hc : g.label? c = some .xor)
    {ts : List Nat} (hts : ∀ t, t ∈ ts ↔ t ∈ (g.removeNode s).below c) :
    Reshapes g ((g.removeNode s).interpose .not c ts) {s, c} := by
  have hcs := (hf.ne hg.coherent).symm
  have hcoh := hg.coherent.removeNode s
  have hids := hg.idsBelow.removeNode s
  have hacyclic := hg.acyclic.removeNode hg.coherent s
  have hcontains := hf.contains_removeNode_target hg.coherent
  have hcnext : c < g.nextId := hg.idsBelow c (hf.contains_target hg.coherent)
  set h := (g.removeNode s).interpose .not c ts with hh
  have hnext : h.nextId = g.nextId + ((g.removeNode s).below c).length := by
    rw [hh, Diagram.nextId_interpose, Diagram.nextId_removeNode]
  have hold (k : Nat) (hk : k < g.nextId) : h.label? k = (g.removeNode s).label? k :=
    Diagram.label?_interpose (by rwa [Diagram.nextId_removeNode])
  have hkept : h.label? c = some .xor :=
    (hold c hcnext).trans (hf.label?_removeNode_target hg.coherent hc)
  have habove (k : Nat) (hk : (g.removeNode s).contains k = true) :
      (h.above k).length = ((g.removeNode s).above k).length := by
    obtain ⟨new, -, hlen, hperm⟩ :=
      Diagram.above_interpose hcoh hids hacyclic hts .not hk
    rw [hperm.length_eq, List.length_append, hlen, ← hcoh.agree, length_filter_ne]
  have hbelow (k : Nat) (hk : (g.removeNode s).contains k = true) :
      (h.below k).length = ((g.removeNode s).below k).length :=
    (Diagram.below_interpose hcoh hids hacyclic hts .not hk).1
  refine hf.reshapes hg (hcoh.interpose hids) hids.interpose (hacyclic.interpose hcoh hids)
    (hnext ▸ Nat.le_add_right _ _) Diagram.inputs_interpose Diagram.outputs_interpose
    (fun k hk _ => hold k hk) (fun k hk _ => habove k hk) hbelow ?_ ?_ ?_
  · intro l hl
    rw [hkept, Option.some.injEq] at hl
    exact .inr ⟨hl ▸ rfl, hl ▸ hc⟩
  · intro k hk l hl
    obtain ⟨t, -, hl', hup, hdown⟩ := Diagram.interpose_new (c := c) hcoh hids .not
      (by rwa [Diagram.nextId_removeNode]) (Diagram.contains_iff_label?.2 ⟨l, hl⟩)
    rw [hl, Option.some.injEq] at hl'
    rw [hup.length_eq, hdown.length_eq, hl']
    exact .not
  · -- the gate has lost an argument, and has one result at most that may need a negation
    have hlen := hf.length_above_target hg.coherent
    have hone : (g.below c).length ≤ 1 := hf.allows hg hc
    rw [weightAt_eq_weight hkept, weightAt_eq_weight hc, habove c hcontains, hbelow c hcontains,
      hnext, hf.below_removeNode hg.coherent hcs, Gate.weight, Gate.weight]
    have hvar : Gate.xor.isVariadic = true := rfl
    rw [hvar]
    simp only [if_true]
    omega

theorem reshapes_settle (hg : g.Lax) (hc : g.label? c = some label)
    (hlabel : label.isVariadic = true) (habove : g.above c = []) (w : Bool) :
    Reshapes g (g.relabel c (.const w)) {c} := by
  have hcg : g.contains c = true := Diagram.contains_iff_label?.2 ⟨label, hc⟩
  have hnew : (g.relabel c (.const w)).label? c = some (.const w) :=
    Diagram.label?_relabel_self hcg
  have hids := hg.idsBelow.relabel c (.const w)
  refine
    { coherent := hg.coherent.relabel c _
      idsBelow := hids
      acyclic := hg.acyclic.relabel c _
      nextId_le := Nat.le_refl _
      inputs_sublist := List.Sublist.refl _
      mem_inputs := ?_
      outputs_eq := rfl
      touched_old := ?_
      label_eq := ?_
      length_eq := ?_
      touched := ?_
      touched_input := ?_
      fresh := ?_
      lighter := ?_ }
  · intro k
    show k ∈ g.inputs ↔ _
    rw [Diagram.contains_relabel]
    exact (and_iff_left_of_imp hg.contains_of_mem_inputs).symm
  · intro k hk
    rw [Finset.mem_singleton] at hk
    refine ⟨hk ▸ hg.idsBelow c hcg, ?_⟩
    intro hout
    -- an output has a parent, and the gate that is settled has none left
    have hone := (hg.output k hout).2.2
    rw [hk, habove] at hone
    cases hone
  · intro k hk hT
    rw [Diagram.label?_relabel, if_neg (by simpa using hT)]
  · intro k hk hT
    rw [Diagram.above_relabel, Diagram.below_relabel]
    exact ⟨rfl, rfl⟩
  · intro k hk l hl
    rw [Finset.mem_singleton] at hk
    subst hk
    rw [hnew, Option.some.injEq] at hl
    rw [Diagram.above_relabel, Diagram.below_relabel, habove, ← hl]
    exact ⟨rfl, .inl ⟨rfl, rfl⟩⟩
  · intro k hk hi
    rw [Finset.mem_singleton] at hk
    exact ⟨label, hk ▸ hc, hlabel⟩
  · intro k hk l hl
    have := hids k (Diagram.contains_iff_label?.2 ⟨l, hl⟩)
    exact absurd hk (Nat.not_le_of_lt this)
  · rw [Finset.sum_singleton, Finset.sum_singleton, weightAt_eq_weight hnew, weightAt_eq_weight hc,
      Diagram.above_relabel, Diagram.below_relabel, Gate.weight, Gate.weight, if_pos hlabel]
    show 2 * ((g.below c).length - 1) + 1 + 0 + (g.nextId - g.nextId) < _
    omega

section Split

variable (hg : g.Lax) (hs : g.label? s = some (.const v)) (habove : g.above s = [])
  (hmany : 1 < (g.below s).length)
include hg hmany

theorem not_input_of_many : s ∉ g.inputs := fun hin => by
  have := (hg.input s hin).2.2
  omega

theorem not_output_of_many : s ∉ g.outputs := hg.not_mem_outputs fun hnil => by
  rw [hnil] at hmany
  cases hmany

include hs in
theorem inputs_split : ((g.removeNode s).feed (.const v) (g.below s)).inputs = g.inputs := by
  have hsg : g.contains s = true := Diagram.contains_iff_label?.2 ⟨_, hs⟩
  rw [Diagram.inputs_feed, Diagram.inputs_removeNode fun _ => hsg, List.filter_eq_self]
  intro k hk
  rw [bne_iff_ne]
  rintro rfl
  exact not_input_of_many hg hmany hk

include habove in
omit hmany in
/-- A child of the source has as many new parents as there were edges from the source. -/
theorem length_split (hk : g.contains k = true) (hks : k ≠ s) :
    (((g.removeNode s).feed (.const v) (g.below s)).above k).length = (g.above k).length ∧
      (((g.removeNode s).feed (.const v) (g.below s)).below k).length = (g.below k).length := by
  have hids := hg.idsBelow.removeNode s
  have hts : ∀ t ∈ g.below s, (g.removeNode s).contains t = true := fun t ht =>
    (hg.child_removeNode ht).1
  have hkc := Diagram.contains_removeNode_iff.2 ⟨hk, hks⟩
  obtain ⟨new, -, hlen, hup⟩ := Diagram.above_feed hids hts (.const v) hkc
  have hdown := Diagram.below_feed hids hts (.const v) hkc
  rw [hup.length_eq, hdown.length_eq, List.length_append, hlen, ← hg.coherent.agree,
    hg.coherent.above_removeNode, if_neg hks, length_filter_ne,
    hg.coherent.below_removeNode_source habove hks]
  exact ⟨rfl, rfl⟩

include hs habove in
theorem reshapes_split : Reshapes g ((g.removeNode s).feed (.const v) (g.below s)) {s} := by
  have hcoh := hg.coherent.removeNode s
  have hids := hg.idsBelow.removeNode s
  have hacyclic := hg.acyclic.removeNode hg.coherent s
  have hsg : g.contains s = true := Diagram.contains_iff_label?.2 ⟨_, hs⟩
  have hsin := not_input_of_many hg hmany
  have hsout := not_output_of_many hg hmany
  have hin := inputs_split hg hs hmany
  have hts : ∀ t ∈ g.below s, (g.removeNode s).contains t = true := fun t ht =>
    (hg.child_removeNode ht).1
  set h := (g.removeNode s).feed (.const v) (g.below s) with hh
  have hnext : h.nextId = g.nextId + (g.below s).length := by
    rw [hh, Diagram.nextId_feed, Diagram.nextId_removeNode]
  have hold (k : Nat) (hk : k < g.nextId) : h.label? k = (g.removeNode s).label? k :=
    Diagram.label?_feed (by rwa [Diagram.nextId_removeNode])
  have hgone : h.label? s = none := by
    rw [hold s (hg.idsBelow s hsg), Diagram.label?_removeNode, if_pos rfl]
  refine
    { coherent := hcoh.feed hids hts
      idsBelow := hids.feed
      acyclic := hacyclic.feed hcoh hids hts
      nextId_le := hnext ▸ Nat.le_add_right _ _
      inputs_sublist := hin ▸ List.Sublist.refl _
      mem_inputs := ?_
      outputs_eq := Diagram.outputs_feed.trans (Diagram.outputs_removeNode hsout)
      touched_old := ?_
      label_eq := ?_
      length_eq := fun k hk hT => length_split hg habove hk (by simpa using hT)
      touched := ?_
      touched_input := ?_
      fresh := ?_
      lighter := ?_ }
  · intro k
    rw [hin]
    refine (and_iff_left_of_imp ?_).symm
    intro hk
    have hkg := hg.contains_of_mem_inputs hk
    rw [Diagram.contains_iff_label?, hold k (hg.idsBelow k hkg), Diagram.label?_removeNode,
      if_neg (fun hks : k = s => hsin (hks ▸ hk)), ← Diagram.contains_iff_label?]
    exact hkg
  · intro k hk
    rw [Finset.mem_singleton] at hk
    exact ⟨hk ▸ hg.idsBelow s hsg, hk ▸ hsout⟩
  · intro k hk hT
    rw [hold k hk, Diagram.label?_removeNode, if_neg (by simpa using hT)]
  · intro k hk l hl
    rw [Finset.mem_singleton] at hk
    rw [hk, hgone] at hl
    cases hl
  · intro k hk hi
    rw [Finset.mem_singleton] at hk
    rw [hin, hk] at hi
    exact absurd hi hsin
  · intro k hk l hl
    obtain ⟨t, -, hl', hup, hdown⟩ := Diagram.feed_new hids hts (.const v)
      (by rwa [Diagram.nextId_removeNode]) (Diagram.contains_iff_label?.2 ⟨l, hl⟩)
    rw [hl, Option.some.injEq] at hl'
    rw [hup.length_eq, hdown.length_eq, hl']
    exact .const v
  · -- each new source weighs one, and the old one weighed nearly two for each of its edges
    rw [Finset.sum_singleton, Finset.sum_singleton, weightAt_eq_zero hgone, weightAt_eq_weight hs,
      hnext]
    show 0 + (g.nextId + (g.below s).length - g.nextId) < 2 * ((g.below s).length - 1) + 1 + 0
    omega

end Split

/-- **Every fold is a local change.** -/
theorem Folds.reshapes (hfold : Folds g h) (hg : g.Lax) : ∃ T, Reshapes g h T := by
  cases hfold with
  | resolve hf hc hlabel => exact ⟨_, hf.reshapes_resolve hg hc hlabel _⟩
  | drop hf hc hv => exact ⟨_, hf.reshapes_drop hg hc (Gate.isVariadic_of_neutral? hv)⟩
  | absorb hf hc hv ps hps =>
    exact ⟨_, hf.reshapes_absorb hg hc (Gate.isVariadic_of_absorbing? hv) hps _⟩
  | negate hf hc ts hts => exact ⟨_, hf.reshapes_negate hg hc hts⟩
  | settle hc hv habove =>
    exact ⟨_, reshapes_settle hg hc (Gate.isVariadic_of_neutral? hv) habove _⟩
  | split hs habove hmany => exact ⟨_, reshapes_split hg hs habove hmany⟩

end Circuit

end Wiring
