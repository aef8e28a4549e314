import Wiring.Proofs.Circuit.FoldShapes

/-!
# Folds keep the meaning of a circuit

Given values that satisfy the equations of a circuit, values for the circuit after a fold are
written down: old nodes keep theirs, except that a gate whose results are negated has the value of
its other arguments from now on, and new nodes get what their gates make of their parents. They
satisfy the equations again, and agree on the outputs. Of the meaning of gates this uses a few laws
only, which three-valued logic is not alone in having.

## Main definitions

- `Gate.Lawful` — what a meaning of gates must be like for folds to keep it
- `Circuit.GivesNeutral` — inputs labelled like a variadic gate are given the value that folding
  takes them for

## Main statements

- `Gate.kleene_cons_neutral`, `Gate.kleene_cons_absorbing`, `Gate.kleene_cons_true` — what a known
  argument does
- `Gate.lawful_kleene` — three-valued logic has the laws
- `Circuit.Folds.settles` — a fold changes the value of no output
-/

namespace Wiring

open scoped Unlimited

/-! ## Known arguments -/

namespace Gate

variable {gate : Gate} {v : Bool}

/-- A neutral argument can be left out. -/
theorem kleene_cons_neutral (h : gate.neutral? = some v) (l : List (Option Bool)) :
    gate.kleene (some v :: l) = gate.kleene l := by
  cases gate with
  | and =>
    cases h
    simp [kleene]
  | or =>
    cases h
    simp [kleene]
  | xor =>
    cases h
    simp [kleene]
  | _ => cases h

/-- An absorbing argument settles the gate. -/
theorem kleene_cons_absorbing (h : gate.absorbing? = some v) (l : List (Option Bool)) :
    gate.kleene (some v :: l) = some v := by
  cases gate with
  | and =>
    cases h
    simp [kleene]
  | or =>
    cases h
    simp [kleene]
  | _ => cases h

/-- A true argument of an exclusive disjunction negates the rest. -/
theorem kleene_cons_true (l : List (Option Bool)) :
    Gate.xor.kleene (some true :: l) = (Gate.xor.kleene l).map (!·) := by
  by_cases hnone : none ∈ l
  · simp [kleene, hnone]
  · have hodd (n : Nat) : ((n + 1) % 2 == 1) = !(n % 2 == 1) := by
      rcases Nat.mod_two_eq_zero_or_one n with h | h <;> simp [Nat.add_mod, h]
    simp [kleene, hnone, hodd]

/-- A variadic gate without arguments has its neutral value. -/
theorem kleene_nil (h : gate.neutral? = some v) : gate.kleene [] = some v := by
  cases gate with
  | and => cases h; rfl
  | or => cases h; rfl
  | xor => cases h; rfl
  | _ => cases h

/-- A gate with a single argument is settled by it. -/
theorem kleene_singleton (h : gate = .copy ∨ gate = .not) (v : Bool) :
    gate.kleene [some v] = some (gate.truth [v]) := by
  rcases h with rfl | rfl <;> rfl

/-- **A meaning of gates that folds keep**, where `bit v` is the meaning of a constant without
    arguments: the order of arguments does not matter, and known arguments are worth what the rules
    of folding take them for. -/
structure Lawful {β : Type} (sem : Gate → List β → β) (bit : Bool → β) : Prop where
  perm : ∀ gate l l', l.Perm l' → sem gate l = sem gate l'
  const : ∀ v, sem (.const v) [] = bit v
  singleton : ∀ gate v, gate = .copy ∨ gate = .not → sem gate [bit v] = bit (gate.truth [v])
  neutral : ∀ gate v l, gate.neutral? = some v → sem gate (bit v :: l) = sem gate l
  absorbing : ∀ gate v l, gate.absorbing? = some v → sem gate (bit v :: l) = bit v
  negated : ∀ l, sem .xor (bit true :: l) = sem .not [sem .xor l]
  nil : ∀ gate v, gate.neutral? = some v → sem gate [] = bit v

theorem lawful_kleene : Lawful kleene some where
  perm _ _ _ := kleene_perm
  const _ := rfl
  singleton _ v h := kleene_singleton h v
  neutral _ _ l h := kleene_cons_neutral h l
  absorbing _ _ l h := kleene_cons_absorbing h l
  negated l := kleene_cons_true l
  nil _ _ := kleene_nil

theorem value?_of_neutral? (h : gate.neutral? = some v) : gate.value? = none := by
  cases gate <;> first | rfl | cases h

end Gate

namespace Circuit

variable {β : Type} [Inhabited β] {sem : Gate → List β → β} {bit : Bool → β} {g h : Circuit}
  {s c k : Nat} {v : Bool} {label : Gate} {T : Finset Nat} {σ ν ν' : Nat → β}

/-! ## Inputs that look like empty gates -/

/-- The inputs that carry the label of a variadic gate are given the neutral value of that gate.
    Folding does not tell such an input from a gate without arguments. -/
def GivesNeutral (bit : Bool → β) (g : Circuit) (σ : Nat → β) : Prop :=
  ∀ i ∈ g.inputs, ∀ label v, g.label? i = some label → label.neutral? = some v → σ i = bit v

omit [Inhabited β] in
/-- Without such inputs there is nothing to ask for. -/
theorem PlainInputs.givesNeutral (hp : g.PlainInputs) : GivesNeutral bit g σ := by
  intro i hi label v hl hv
  have hvariadic := Gate.isVariadic_of_neutral? hv
  rw [hp i hi label hl] at hvariadic
  cases hvariadic

omit [Inhabited β] in
/-- What a local change leaves of the inputs is labelled as before or has become a constant. -/
theorem Reshapes.givesNeutral (hr : Reshapes g h T) (hg : g.Lax) (hσ : GivesNeutral bit g σ) :
    GivesNeutral bit h σ := by
  intro i hi label v hl hv
  have hin := ((hr.mem_inputs i).1 hi).1
  rcases hr.cases hl with ⟨-, hlg, -⟩ | hT | hnew
  · exact hσ i hin label v hlg hv
  · obtain ⟨-, ⟨hvalue, -⟩ | ⟨-, -, hnot⟩⟩ := hr.touched i hT label hl
    · rw [Gate.value?_of_neutral? hv] at hvalue
      cases hvalue
    · exact absurd hin hnot
  · exact absurd hin (not_terminal hg hnew).1

/-! ## Transfer -/

theorem nodeValue_transfer (hsem : Gate.Lawful sem bit) (hlabel : h.label? k = g.label? k)
    (hin : k ∈ h.inputs ↔ k ∈ g.inputs) (hout : k ∈ h.outputs ↔ k ∈ g.outputs)
    (hperm : ((h.above k).map ν').Perm ((g.above k).map ν)) :
    nodeValue sem h σ ν' k = nodeValue sem g σ ν k := by
  have hisIn : h.isInput k = g.isInput k := by
    rw [Bool.eq_iff_iff, Diagram.isInput, Diagram.isInput, List.contains_iff_mem,
      List.contains_iff_mem, hin]
  have hisOut : h.isOutput k = g.isOutput k := by
    rw [Bool.eq_iff_iff, Diagram.isOutput, Diagram.isOutput, List.contains_iff_mem,
      List.contains_iff_mem, hout]
  rw [nodeValue, nodeValue, hisOut, hlabel, hisIn, Gate.sole_perm hperm]
  cases g.label? k with
  | none => rfl
  | some label => simp only [hsem.perm _ _ _ hperm]

theorem nodeValue_const (hsem : Gate.Lawful sem bit) (hk : g.label? k = some (.const v))
    (hout : k ∉ g.outputs) (habove : g.above k = []) : nodeValue sem g σ ν k = bit v := by
  rw [nodeValue_gate hk hout (.inr rfl), habove]
  exact hsem.const v

/-- Values satisfy the equations after a local change, if they do so at the nodes that are touched
    or new, and no other node gets to see a change. -/
theorem Reshapes.settles (hsem : Gate.Lawful sem bit) (hr : Reshapes g h T) (hg : g.Lax)
    (hν : Settles sem g σ ν)
    (hsame : ∀ k, g.contains k = true → k ∉ T →
      ν' k = ν k ∧ ((h.above k).map ν').Perm ((g.above k).map ν))
    (htouched : ∀ k ∈ T, h.contains k = true → ν' k = nodeValue sem h σ ν' k)
    (hfresh : ∀ k, g.nextId ≤ k → ∀ label, h.label? k = some label →
      ν' k = sem label ((h.above k).map ν')) :
    Settles sem h σ ν' ∧ ∀ o ∈ g.outputs, ν' o = ν o := by
  constructor
  · intro k hk
    obtain ⟨label, hl⟩ := Diagram.contains_iff_label?.1 hk
    rcases hr.cases hl with ⟨hT, hlg, -⟩ | hT | hnew
    · have hkg := Diagram.contains_iff_label?.2 ⟨label, hlg⟩
      obtain ⟨hvalue, hperm⟩ := hsame k hkg hT
      have hin : k ∈ h.inputs ↔ k ∈ g.inputs := by
        rw [hr.mem_inputs]
        exact and_iff_left hk
      rw [hvalue, hν k hkg]
      exact (nodeValue_transfer hsem (hl.trans hlg.symm) hin (by rw [hr.outputs_eq]) hperm).symm
    · exact htouched k hT hk
    · obtain ⟨hin, hout⟩ := not_terminal hg hnew
      rw [hfresh k hnew label hl, nodeValue_gate hl (by rwa [hr.outputs_eq])
        (.inl fun h => hin ((hr.mem_inputs k).1 h).1)]
  · intro o ho
    exact (hsame o (hg.contains_of_mem_outputs ho) fun hT => (hr.touched_old o hT).2 ho).1

/-- Taking an element out of a list and putting it back as often as it was there. -/
theorem perm_filter_append (l : List Nat) (i : Nat) :
    (l.filter (· != i) ++ List.replicate (l.count i) i).Perm l := by
  rw [List.perm_iff_count]
  intro j
  rw [List.count_append, Diagram.count_filter_ne, List.count_replicate]
  by_cases hj : j = i
  · simp [hj]
  · simp [hj, Ne.symm hj]

omit [Inhabited β] in
/-- New neighbours with the value of an old one stand in for it. -/
theorem map_filter_append {l new : List Nat} {i : Nat} (hlen : new.length = l.count i)
    (hold : ∀ p ∈ l, p ≠ i → ν' p = ν p) (hnew : ∀ p ∈ new, ν' p = ν i) :
    ((l.filter (· != i) ++ new).map ν').Perm (l.map ν) := by
  have hfirst : (l.filter (· != i)).map ν' = (l.filter (· != i)).map ν := by
    apply List.map_congr_left
    intro p hp
    rw [List.mem_filter, bne_iff_ne] at hp
    exact hold p hp.1 hp.2
  have hsecond : new.map ν' = (List.replicate (l.count i) i).map ν := by
    rw [List.map_replicate, List.eq_replicate_iff, List.length_map]
    refine ⟨hlen, ?_⟩
    intro b hb
    obtain ⟨p, hp, rfl⟩ := List.mem_map.1 hb
    exact hnew p hp
  rw [List.map_append, hfirst, hsecond, ← List.map_append]
  exact (perm_filter_append l i).map ν

/-! ## Around a source -/

namespace Feeds

variable (hsem : Gate.Lawful sem bit) (hf : Feeds g s v c) (hg : g.Lax)
  (hν : Settles sem g σ ν)
include hf hg

theorem perm_above_target : (g.above c).Perm (s :: (g.removeNode s).above c) := by
  have hone : (g.above c).count s = 1 := by
    rw [hg.coherent.agree, hf.below]
    exact List.count_singleton_self
  rw [hf.above_target_removeNode hg.coherent]
  refine (perm_filter_append (g.above c) s).symm.trans ?_
  rw [hone]
  exact List.perm_append_comm

include hsem hν

theorem value_source : ν s = bit v := by
  rw [hν s hf.contains_source]
  exact nodeValue_const hsem hf.label (hf.source_not_output hg) hf.above

/-- The gate makes its value of that of the source and of its other arguments. -/
theorem value_target (hc : g.label? c = some label) :
    ν c = sem label (bit v :: ((g.removeNode s).above c).map ν) := by
  rw [hν c (hf.contains_target hg.coherent),
    nodeValue_gate hc hf.notOutput (.inl (hf.not_input hg)),
    hsem.perm _ _ _ ((hf.perm_above_target hg).map ν), List.map_cons, value_source hsem hf hg hν]

/-- Values satisfy the equations after a fold that removes the source, if they do so at the gate
    and at new nodes, and no other node gets to see a change. -/
theorem settles_of (hr : Reshapes g h {s, c}) (hgone : h.contains s = false)
    (hsame : ∀ k, (g.removeNode s).contains k = true → k ≠ c →
      ν' k = ν k ∧ ((h.above k).map ν').Perm (((g.removeNode s).above k).map ν))
    (htarget : ν' c = nodeValue sem h σ ν' c)
    (hfresh : ∀ k, g.nextId ≤ k → ∀ label, h.label? k = some label →
      ν' k = sem label ((h.above k).map ν')) :
    Settles sem h σ ν' ∧ ∀ o ∈ g.outputs, ν' o = ν o := by
  refine hr.settles hsem hg hν ?_ ?_ hfresh
  · intro k hk hT
    rw [Finset.mem_insert, Finset.mem_singleton, not_or] at hT
    rw [← hf.above_removeNode hg.coherent hT.1 hT.2]
    exact hsame k (Diagram.contains_removeNode_iff.2 ⟨hk, hT.1⟩) hT.2
  · intro k hT hk
    rw [Finset.mem_insert, Finset.mem_singleton] at hT
    rcases hT with rfl | rfl
    · rw [hgone] at hk
      cases hk
    · exact htarget

end Feeds

/-! ## The folds -/

section

variable (hsem : Gate.Lawful sem bit) (hf : Feeds g s v c) (hg : g.Lax)
  (hν : Settles sem g σ ν)
include hsem hf hg hν

theorem Feeds.settles_resolve (hc : g.label? c = some label)
    (hlabel : label = .copy ∨ label = .not) :
    Settles sem ((g.relabel c (.const (label.truth [v]))).removeNode s) σ ν := by
  have hr := hf.reshapes_resolve hg hc hlabel (label.truth [v])
  rw [hg.coherent.relabel_removeNode] at hr ⊢
  refine (Feeds.settles_of hsem hf hg hν hr ?_ (fun k _ _ => ⟨rfl, ?_⟩) ?_ ?_).1
  · rw [Diagram.contains_relabel, Diagram.contains_removeNode, bne_self_eq_false, Bool.and_false]
  · rw [Diagram.above_relabel]
  · have hnew : ((g.removeNode s).relabel c (.const (label.truth [v]))).label? c =
        some (.const (label.truth [v])) :=
      Diagram.label?_relabel_self (hf.contains_removeNode_target hg.coherent)
    have hnil : (g.removeNode s).above c = [] := by
      rw [hf.above_target_removeNode hg.coherent, hf.above_eq hg hc hlabel]
      simp
    rw [nodeValue_const hsem hnew (hr.outputs_eq ▸ hf.notOutput)
        (Diagram.above_relabel.trans hnil),
      Feeds.value_target hsem hf hg hν hc, hnil]
    exact hsem.singleton label v hlabel
  · intro k hk l hl
    exact (hr.not_fresh Diagram.nextId_removeNode hk hl).elim

theorem Feeds.settles_drop (hc : g.label? c = some label) (hv : label.neutral? = some v)
    (hlabel : label.isVariadic = true) : Settles sem (g.removeNode s) σ ν := by
  have hr := hf.reshapes_drop hg hc hlabel
  refine (Feeds.settles_of hsem hf hg hν hr ?_ (fun k _ _ => ⟨rfl, .refl _⟩) ?_ ?_).1
  · rw [Diagram.contains_removeNode, bne_self_eq_false, Bool.and_false]
  · rw [nodeValue_gate (hf.label?_removeNode_target hg.coherent hc) (hr.outputs_eq ▸ hf.notOutput)
      (.inl fun hin => hf.not_input hg ((hr.mem_inputs c).1 hin).1),
      Feeds.value_target hsem hf hg hν hc]
    exact hsem.neutral label v _ hv
  · intro k hk l hl
    exact (hr.not_fresh Diagram.nextId_removeNode hk hl).elim

theorem Feeds.settles_absorb (hc : g.label? c = some label) (hv : label.absorbing? = some v)
    (hlabel : label.isVariadic = true) {ps : List Nat}
    (hps : ∀ p, p ∈ ps ↔ p ∈ (g.removeNode s).above c) :
    ∃ ν', Settles sem (((g.removeNode s).divert .copy c ps).relabel c (.const v)) σ ν' ∧
      ∀ o ∈ g.outputs, ν' o = ν o := by
  have hr := hf.reshapes_absorb hg hc hlabel hps v
  have hcoh := hg.coherent.removeNode s
  have hids := hg.idsBelow.removeNode s
  have hacyclic := hg.acyclic.removeNode hg.coherent s
  have hcg := hf.contains_target hg.coherent
  set mid := (g.removeNode s).divert .copy c ps with hmid
  have hold (k : Nat) (hk : k < g.nextId) : mid.label? k = (g.removeNode s).label? k :=
    Diagram.label?_divert (by rwa [Diagram.nextId_removeNode])
  -- a new copy has the value that it makes of its parent
  let ν' (k : Nat) := if k < g.nextId then ν k else sem .copy ((mid.above k).map ν)
  have hsame (k : Nat) (hk : (g.removeNode s).contains k = true) : ν' k = ν k :=
    if_pos (hg.idsBelow k (Diagram.contains_removeNode_iff.1 hk).1)
  refine ⟨ν', Feeds.settles_of hsem hf hg hν hr ?_ (fun k hk hkc => ⟨hsame k hk, ?_⟩) ?_ ?_⟩
  · rw [Diagram.contains_relabel, ← Bool.not_eq_true, Diagram.contains_iff_label?,
      hold s (hg.idsBelow s hf.contains_source), Diagram.label?_removeNode, if_pos rfl]
    exact fun ⟨l, hl⟩ => nomatch hl
  · have hperm := Diagram.above_divert hcoh hids hacyclic hps .copy hk
    rw [if_neg hkc] at hperm
    rw [Diagram.above_relabel, ← List.map_congr_left fun p hp =>
      hsame p (hcoh.contains_of_mem_above hp)]
    exact hperm.map ν'
  · have hnew : (mid.relabel c (.const v)).label? c = some (.const v) :=
      Diagram.label?_relabel_self (hf.contains_divert_target hg.coherent)
    have hgone : (mid.relabel c (.const v)).above c = [] := by
      have hperm := Diagram.above_divert hcoh hids hacyclic hps .copy
        (hf.contains_removeNode_target hg.coherent)
      rw [if_pos rfl, List.perm_nil] at hperm
      rw [Diagram.above_relabel, hperm]
    rw [nodeValue_const hsem hnew (hr.outputs_eq ▸ hf.notOutput) hgone,
      hsame c (hf.contains_removeNode_target hg.coherent), Feeds.value_target hsem hf hg hν hc]
    exact hsem.absorbing label v _ hv
  · intro k hk l hl
    have hkc : k ≠ c := fun hkc => by
      have := hg.idsBelow c hcg
      omega
    rw [Diagram.label?_relabel, if_neg hkc] at hl
    obtain ⟨p, hp, hl', hup, -⟩ := Diagram.divert_new (c := c) hcoh hids .copy
      (by rwa [Diagram.nextId_removeNode]) (Diagram.contains_iff_label?.2 ⟨l, hl⟩)
    rw [hl, Option.some.injEq] at hl'
    rw [hl', Diagram.above_relabel]
    show (if k < g.nextId then ν k else sem .copy ((mid.above k).map ν)) = _
    rw [if_neg (Nat.not_lt_of_le hk), hsem.perm _ _ _ (hup.map ν), hsem.perm _ _ _ (hup.map ν'),
      List.map_singleton, List.map_singleton, hsame p (hcoh.contains_of_mem_above hp)]

theorem Feeds.settles_negate (hc : g.label? c = some .xor) (hv : v = true) {ts : List Nat}
    (hts : ∀ t, t ∈ ts ↔ t ∈ (g.removeNode s).below c) :
    ∃ ν', Settles sem ((g.removeNode s).interpose .not c ts) σ ν' ∧
      ∀ o ∈ g.outputs, ν' o = ν o := by
  have hr := hf.reshapes_negate hg hc hts
  have hcoh := hg.coherent.removeNode s
  have hids := hg.idsBelow.removeNode s
  have hacyclic := hg.acyclic.removeNode hg.coherent s
  have hcg := hf.contains_target hg.coherent
  set h := (g.removeNode s).interpose .not c ts with hh
  -- the gate has the value of its other arguments, and the new negations have the one it had
  let rest := sem .xor (((g.removeNode s).above c).map ν)
  let ν' (k : Nat) := if k = c then rest else if k < g.nextId then ν k else ν c
  have hself : ν' c = rest := if_pos rfl
  have hsame (k : Nat) (hk : (g.removeNode s).contains k = true) (hkc : k ≠ c) : ν' k = ν k := by
    show (if k = c then rest else if k < g.nextId then ν k else ν c) = _
    rw [if_neg hkc, if_pos (hg.idsBelow k (Diagram.contains_removeNode_iff.1 hk).1)]
  have hnew (k : Nat) (hk : g.nextId ≤ k) : ν' k = ν c := by
    have hkc : k ≠ c := fun hkc => by
      have := hg.idsBelow c hcg
      omega
    show (if k = c then rest else if k < g.nextId then ν k else ν c) = _
    rw [if_neg hkc, if_neg (Nat.not_lt_of_le hk)]
  have hlabel (k : Nat) (hk : k < g.nextId) : h.label? k = (g.removeNode s).label? k :=
    Diagram.label?_interpose (by rwa [Diagram.nextId_removeNode])
  have habove (k : Nat) (hk : (g.removeNode s).contains k = true) :
      ((h.above k).map ν').Perm (((g.removeNode s).above k).map ν) := by
    obtain ⟨new, hfresh, hlen, hperm⟩ := Diagram.above_interpose hcoh hids hacyclic hts .not hk
    rw [← hcoh.agree] at hlen
    rw [Diagram.nextId_removeNode] at hfresh
    exact (hperm.map ν').trans (map_filter_append hlen
      (fun p hp hpc => hsame p (hcoh.contains_of_mem_above hp) hpc)
      fun p hp => hnew p (hfresh p hp))
  refine ⟨ν', Feeds.settles_of hsem hf hg hν hr ?_
    (fun k hk hkc => ⟨hsame k hk hkc, habove k hk⟩) ?_ ?_⟩
  · rw [← Bool.not_eq_true, Diagram.contains_iff_label?,
      hlabel s (hg.idsBelow s hf.contains_source), Diagram.label?_removeNode, if_pos rfl]
    exact fun ⟨l, hl⟩ => nomatch hl
  · have hkept : h.label? c = some .xor :=
      (hlabel c (hg.idsBelow c hcg)).trans (hf.label?_removeNode_target hg.coherent hc)
    rw [nodeValue_gate hkept (hr.outputs_eq ▸ hf.notOutput)
      (.inl fun hin => hf.not_input hg ((hr.mem_inputs c).1 hin).1),
      hsem.perm _ _ _ (habove c (hf.contains_removeNode_target hg.coherent)), hself]
  · intro k hk l hl
    obtain ⟨t, -, hl', hup, -⟩ := Diagram.interpose_new (c := c) hcoh hids .not
      (by rwa [Diagram.nextId_removeNode]) (Diagram.contains_iff_label?.2 ⟨l, hl⟩)
    rw [hl, Option.some.injEq] at hl'
    rw [hnew k hk, hl', hsem.perm _ _ _ (hup.map ν'), List.map_singleton, hself,
      Feeds.value_target hsem hf hg hν hc, hv]
    exact hsem.negated _

end

theorem settles_settle (hsem : Gate.Lawful sem bit) (hg : g.Lax) (hν : Settles sem g σ ν)
    (hσ : GivesNeutral bit g σ) (hc : g.label? c = some label) (hv : label.neutral? = some v)
    (hlabel : label.isVariadic = true) (habove : g.above c = []) :
    Settles sem (g.relabel c (.const v)) σ ν := by
  have hr := reshapes_settle hg hc hlabel habove v
  refine (hr.settles hsem hg hν (fun k hk hT => ⟨rfl, ?_⟩) ?_ ?_).1
  · rw [Diagram.above_relabel]
  · intro k hT hk
    rw [Finset.mem_singleton] at hT
    subst hT
    have hnew : (g.relabel k (.const v)).label? k = some (.const v) :=
      Diagram.label?_relabel_self (Diagram.contains_iff_label?.2 ⟨label, hc⟩)
    have hout : k ∉ g.outputs := (hr.touched_old k (Finset.mem_singleton_self k)).2
    rw [nodeValue_const hsem hnew hout (Diagram.above_relabel.trans habove),
      hν k (Diagram.contains_iff_label?.2 ⟨label, hc⟩)]
    by_cases hin : k ∈ g.inputs
    · rw [nodeValue_input hc hout hin (Gate.value?_of_neutral? hv)]
      exact hσ k hin label v hc hv
    · rw [nodeValue_gate hc hout (.inl hin), habove, List.map_nil, hsem.nil label v hv]
  · intro k hk l hl
    exact (hr.not_fresh rfl hk hl).elim

theorem settles_split (hsem : Gate.Lawful sem bit) (hg : g.Lax) (hν : Settles sem g σ ν)
    (hs : g.label? s = some (.const v)) (habove : g.above s = [])
    (hmany : 1 < (g.below s).length) :
    ∃ ν', Settles sem ((g.removeNode s).feed (.const v) (g.below s)) σ ν' ∧
      ∀ o ∈ g.outputs, ν' o = ν o := by
  have hr := reshapes_split hg hs habove hmany
  have hids := hg.idsBelow.removeNode s
  have hsg : g.contains s = true := Diagram.contains_iff_label?.2 ⟨_, hs⟩
  have hsout : s ∉ g.outputs := (hr.touched_old s (Finset.mem_singleton_self s)).2
  have hvalue : ν s = bit v := (hν s hsg).trans (nodeValue_const hsem hs hsout habove)
  have hts : ∀ t ∈ g.below s, (g.removeNode s).contains t = true := fun t ht =>
    (hg.child_removeNode ht).1
  -- the new sources have the value of the one that they replace
  let ν' (k : Nat) := if k < g.nextId then ν k else bit v
  have hold (k : Nat) (hk : g.contains k = true) : ν' k = ν k := if_pos (hg.idsBelow k hk)
  have hnew (k : Nat) (hk : g.nextId ≤ k) : ν' k = bit v := if_neg (Nat.not_lt_of_le hk)
  refine ⟨ν', hr.settles hsem hg hν (fun k hk hT => ⟨hold k hk, ?_⟩) ?_ ?_⟩
  · rw [Finset.mem_singleton] at hT
    have hk' := Diagram.contains_removeNode_iff.2 ⟨hk, hT⟩
    obtain ⟨new, hids', hlen, hperm⟩ := Diagram.above_feed hids hts (.const v) hk'
    rw [hg.coherent.above_removeNode, if_neg hT] at hperm
    rw [Diagram.nextId_removeNode] at hids'
    rw [← hg.coherent.agree] at hlen
    exact (hperm.map ν').trans (map_filter_append hlen
      (fun p hp _ => hold p (hg.coherent.contains_of_mem_above hp))
      fun p hp => (hnew p (hids' p hp)).trans hvalue.symm)
  · intro k hT hk
    rw [Finset.mem_singleton] at hT
    subst hT
    rw [Diagram.contains_iff_label?,
      Diagram.label?_feed (by rw [Diagram.nextId_removeNode]; exact hg.idsBelow k hsg),
      Diagram.label?_removeNode, if_pos rfl] at hk
    obtain ⟨l, hl⟩ := hk
    cases hl
  · intro k hk l hl
    obtain ⟨t, -, hl', hup, -⟩ := Diagram.feed_new hids hts (.const v)
      (by rwa [Diagram.nextId_removeNode]) (Diagram.contains_iff_label?.2 ⟨l, hl⟩)
    rw [hl, Option.some.injEq] at hl'
    rw [hnew k hk, hl', List.perm_nil.1 hup]
    exact (hsem.const v).symm

/-- **A fold changes the value of no output**, whatever is given for the inputs, those apart that it
    takes for empty gates. -/
theorem Folds.settles (hsem : Gate.Lawful sem bit) (hfold : Folds g h) (hg : g.Lax)
    (hσ : GivesNeutral bit g σ) (hν : Settles sem g σ ν) :
    ∃ ν', Settles sem h σ ν' ∧ ∀ o ∈ g.outputs, ν' o = ν o := by
  cases hfold with
  | resolve hf hc hlabel =>
    exact ⟨ν, Feeds.settles_resolve hsem hf hg hν hc hlabel, fun _ _ => rfl⟩
  | drop hf hc hv =>
    exact ⟨ν, Feeds.settles_drop hsem hf hg hν hc hv (Gate.isVariadic_of_neutral? hv),
      fun _ _ => rfl⟩
  | absorb hf hc hv ps hps =>
    exact Feeds.settles_absorb hsem hf hg hν hc hv (Gate.isVariadic_of_absorbing? hv) hps
  | negate hf hc ts hts => exact Feeds.settles_negate hsem hf hg hν hc rfl hts
  | settle hc hv habove =>
    exact ⟨ν, settles_settle hsem hg hν hσ hc hv (Gate.isVariadic_of_neutral? hv) habove,
      fun _ _ => rfl⟩
  | split hs habove hmany => exact settles_split hsem hg hν hs habove hmany

end Circuit

end Wiring
