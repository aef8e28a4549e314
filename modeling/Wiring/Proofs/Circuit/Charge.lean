import Mathlib.Logic.Relation
import Wiring.Proofs.Circuit.FoldShapes
import Wiring.Proofs.Words.Room

/-!
# The charge of a circuit

Folding comes to an end on any diagram whose edges are recorded at both ends, whether it has cycles
and whether its gates have their arity or not. An exclusive disjunction may have any number of
results here, and each of its arguments may put a negation on each of them. So a node is charged for
its results, for its arguments if it is variadic, and for all pairs of the two if it is an exclusive
disjunction. What a fold takes off the charge pays for each new node twice, so that the charge also
limits how many ids folding uses up.

## Main definitions

- `Gate.charge`, `Circuit.charge` — the charge of a node, and of all nodes together
- `Circuit.budget` — the charge together with the ids that have been given out

## Main statements

- `Circuit.Folds.coherent` — what folds keep without further assumptions
- `Circuit.Folds.budget_lt`, `Circuit.Folds.charge_lt` — the budget and the charge get smaller
-/

namespace Wiring

open scoped Unlimited

/-- The charge of a node with so many edges in and out. For each node that an edge may need a new
    one is charged, and its id. -/
def Gate.charge (label : Gate) (ins outs : Nat) : Nat :=
  4 * (outs - 1) + 1 + (if label.isVariadic then 2 * ins + 1 else 0) +
    if label = .xor then 2 * (ins * outs) else 0

namespace Gate

variable {label : Gate} {ins ins' outs outs' : Nat} {v : Bool}

theorem charge_mono (label : Gate) (hin : ins' ≤ ins) (hout : outs' ≤ outs) :
    label.charge ins' outs' ≤ label.charge ins outs := by
  have hmul := Nat.mul_le_mul hin hout
  unfold charge
  split <;> split <;> omega

theorem charge_const (v : Bool) (ins outs : Nat) :
    (Gate.const v).charge ins outs = 4 * (outs - 1) + 1 := by
  simp [charge, isVariadic]

/-- A variadic gate is charged for each of its arguments. -/
theorem le_charge_of_isVariadic (h : label.isVariadic = true) (ins outs : Nat) :
    4 * (outs - 1) + 1 + (2 * ins + 1) ≤ label.charge ins outs := by
  unfold charge
  rw [if_pos h]
  exact Nat.le_add_right _ _

theorem charge_xor_succ (ins outs : Nat) :
    Gate.xor.charge (ins + 1) outs = Gate.xor.charge ins outs + 2 + 2 * outs := by
  simp only [charge, isVariadic, if_true, Nat.succ_mul]
  omega

/-- A gate is charged no more than the square of its edges. -/
theorem charge_le (label : Gate) (ins outs : Nat) : label.charge ins outs ≤
    4 * (ins + outs + 1) + (ins + outs + 1) * (ins + outs + 1) := by
  have hin : ins * outs ≤ ins * (ins + outs + 1) := Nat.mul_le_mul_left _ (by omega)
  have hout : ins * outs ≤ outs * (ins + outs + 1) :=
    Nat.mul_comm ins outs ▸ Nat.mul_le_mul_left _ (by omega)
  have hmul : (ins + outs + 1) * (ins + outs + 1) =
      ins * (ins + outs + 1) + outs * (ins + outs + 1) + (ins + outs + 1) := by
    rw [Nat.add_mul, Nat.add_mul, Nat.one_mul]
  unfold charge
  split <;> split <;> omega

end Gate

namespace Circuit

variable {g h : Circuit} {s c k : Nat} {v w : Bool} {label : Gate}

/-- The charge of the node `k`, if there is one. -/
def chargeAt (g : Circuit) (k : Nat) : Nat :=
  (g.label? k).elim 0 fun label => label.charge (g.above k).length (g.below k).length

/-- **The charge of a circuit**: that of all nodes. -/
def charge (g : Circuit) : Nat := ∑ k ∈ Finset.range g.nextId, g.chargeAt k

/-- **The budget of a circuit**: its charge, and the ids that have been given out. -/
def budget (g : Circuit) : Nat := g.nextId + g.charge

theorem budget_eq_sum (g : Circuit) :
    g.budget = ∑ k ∈ Finset.range g.nextId, (g.chargeAt k + 1) := by
  rw [budget, charge, Finset.sum_add_distrib, Finset.sum_const, Finset.card_range, Nat.add_comm]
  exact congrArg _ (Nat.mul_one _).symm

theorem IsFresh.charge_le {ins outs : Nat} (h : IsFresh label ins outs) :
    label.charge ins outs ≤ 1 := by
  cases h <;> exact Nat.le_refl 1

theorem chargeAt_eq_charge (hk : g.label? k = some label) :
    g.chargeAt k = label.charge (g.above k).length (g.below k).length := by
  rw [chargeAt, hk]
  rfl

theorem chargeAt_eq_zero (hk : g.label? k = none) : g.chargeAt k = 0 := by
  rw [chargeAt, hk]
  rfl

theorem chargeAt_of_nextId_le (hids : g.IdsBelow) (hk : g.nextId ≤ k) : g.chargeAt k = 0 := by
  have hnot := hids.not_contains hk
  rw [chargeAt_eq_zero]
  rw [← Option.not_isSome_iff_eq_none, Diagram.label?, Option.isSome_map,
    ← Diagram.contains_eq_isSome, hnot]
  exact Bool.false_ne_true

/-- A node that keeps its label and gets no new edges is not charged more. -/
theorem chargeAt_le (hlabel : h.label? k = g.label? k)
    (hlen : g.contains k = true → (h.above k).length ≤ (g.above k).length ∧
      (h.below k).length ≤ (g.below k).length) : h.chargeAt k ≤ g.chargeAt k := by
  rw [chargeAt, chargeAt, hlabel]
  cases hl : g.label? k with
  | none => exact Nat.le_refl 0
  | some label =>
    obtain ⟨hup, hdown⟩ := hlen (Diagram.contains_iff_label?.2 ⟨label, hl⟩)
    exact label.charge_mono hup hdown

/-- New nodes that are fresh are charged one at most. -/
theorem chargeAt_le_one (h : ∀ label, g.label? k = some label →
    IsFresh label (g.above k).length (g.below k).length) : g.chargeAt k ≤ 1 := by
  cases hl : g.label? k with
  | none =>
    rw [chargeAt_eq_zero hl]
    exact Nat.zero_le 1
  | some label =>
    rw [chargeAt_eq_charge hl]
    exact (h label hl).charge_le

/-! ## Removal -/

theorem chargeAt_removeNode_le (g : Circuit) (i k : Nat) :
    chargeAt (g.removeNode i) k ≤ g.chargeAt k := by
  by_cases hk : k = i
  · rw [chargeAt_eq_zero (by rw [Diagram.label?_removeNode, if_pos hk])]
    exact Nat.zero_le _
  · exact chargeAt_le (by rw [Diagram.label?_removeNode, if_neg hk])
      fun _ => Diagram.length_removeNode_le g i k

/-- **Removing a node lowers the charge**, since every node has one. -/
theorem charge_removeNode_lt (hids : g.IdsBelow) {i : Nat}
    (hi : g.contains i = true) : charge (g.removeNode i) < g.charge := by
  obtain ⟨label, hl⟩ := Diagram.contains_iff_label?.1 hi
  rw [charge, charge, Diagram.nextId_removeNode]
  refine Finset.sum_lt_sum (fun k _ => chargeAt_removeNode_le g i k)
    ⟨i, Finset.mem_range.2 (hids i hi), ?_⟩
  rw [chargeAt_eq_zero (by rw [Diagram.label?_removeNode, if_pos rfl]), chargeAt_eq_charge hl,
    Gate.charge]
  omega

theorem charge_removeNode_le (g : Circuit) (i : Nat) :
    charge (g.removeNode i) ≤ g.charge := by
  rw [charge, charge, Diagram.nextId_removeNode]
  exact Finset.sum_le_sum fun k _ => chargeAt_removeNode_le g i k

/-! ## Where a source goes -/

namespace Feeds

variable (hf : Feeds g s v c) (hg : g.Coherent) (hids : g.IdsBelow)
include hf hg hids

/-- **The budget gets smaller where a source goes**, if the gate that it fed pays for all new
    nodes. -/
theorem budget_lt (hnext : g.nextId ≤ h.nextId)
    (hlabel : ∀ k < g.nextId, k ≠ c → h.label? k = (g.removeNode s).label? k)
    (hlen : ∀ k, (g.removeNode s).contains k = true → k ≠ c →
      (h.above k).length ≤ ((g.removeNode s).above k).length ∧
        (h.below k).length ≤ ((g.removeNode s).below k).length)
    (hnew : ∀ k, g.nextId ≤ k → h.chargeAt k ≤ 1)
    (hpaid : h.chargeAt c + 2 * (h.nextId - g.nextId) ≤ g.chargeAt c) : h.budget < g.budget := by
  have hsc := hf.ne hg
  have hs := hids s hf.contains_source
  rw [budget_eq_sum, budget_eq_sum]
  refine sum_range_lt (T := {s, c}) 2 hnext ?_ ?_ (fun k hk => Nat.succ_le_succ (hnew k hk)) ?_
  · intro k hk
    rcases Finset.mem_insert.1 hk with rfl | hk
    · exact hs
    · exact Finset.mem_singleton.1 hk ▸ hids c (hf.contains_target hg)
  · intro k hk hT
    rw [Finset.mem_insert, Finset.mem_singleton, not_or] at hT
    exact Nat.succ_le_succ ((chargeAt_le (hlabel k hk hT.2) fun hc => hlen k hc hT.2).trans
      (chargeAt_removeNode_le g s k))
  · have hgone : h.chargeAt s = 0 :=
      chargeAt_eq_zero (by rw [hlabel s hs hsc, Diagram.label?_removeNode, if_pos rfl])
    have hone : g.chargeAt s = 1 := by
      rw [chargeAt_eq_charge hf.label, Gate.charge_const, hf.below]
      rfl
    rw [Finset.sum_pair hsc, Finset.sum_pair hsc, hgone, hone]
    omega

/-- A gate with a single argument becomes a source, which is charged no more. -/
theorem budget_resolve_lt (hc : g.label? c = some label) (w : Bool) :
    budget ((g.relabel c (.const w)).removeNode s) < g.budget := by
  have hids' := (hids.removeNode s).relabel c (.const w)
  have hnew : ((g.removeNode s).relabel c (.const w)).label? c = some (.const w) :=
    Diagram.label?_relabel_self (hf.contains_removeNode_target hg)
  have hnext : ((g.removeNode s).relabel c (.const w)).nextId = g.nextId :=
    Diagram.nextId_removeNode
  rw [hg.relabel_removeNode]
  refine hf.budget_lt hg hids (Nat.le_of_eq hnext.symm) ?_ ?_ ?_ ?_
  · intro k _ hk
    rw [Diagram.label?_relabel, if_neg hk]
  · intro k _ _
    rw [Diagram.above_relabel, Diagram.below_relabel]
    exact ⟨Nat.le_refl _, Nat.le_refl _⟩
  · intro k hk
    rw [chargeAt_of_nextId_le hids' (by rwa [hnext])]
    exact Nat.zero_le 1
  · rw [chargeAt_eq_charge hnew, chargeAt_eq_charge hc, Gate.charge_const, Diagram.below_relabel,
      hf.below_removeNode hg (hf.ne hg).symm, hnext, Gate.charge]
    omega

omit hg in
/-- A variadic gate loses an argument. -/
theorem budget_drop_lt : budget (g.removeNode s) < g.budget := by
  rw [budget, budget, Diagram.nextId_removeNode]
  exact Nat.add_lt_add_left (charge_removeNode_lt hids hf.contains_source) _

/-- The arguments of a gate that is settled pay for the copies that they go to. -/
theorem budget_absorb_lt (hc : g.label? c = some label) (hlabel : label.isVariadic = true)
    {ps : List Nat} (hps : ∀ p, p ∈ ps ↔ p ∈ (g.removeNode s).above c) (w : Bool) :
    budget (((g.removeNode s).divert .copy c ps).relabel c (.const w)) < g.budget := by
  have hcs := (hf.ne hg).symm
  have hcoh := hg.removeNode s
  have hids' := hids.removeNode s
  have hcontains := hf.contains_removeNode_target hg
  have hcnext : c < g.nextId := hids c (hf.contains_target hg)
  set mid := (g.removeNode s).divert .copy c ps with hmid
  have hnext : mid.nextId = g.nextId + ((g.removeNode s).above c).length := by
    rw [hmid, Diagram.nextId_divert, Diagram.nextId_removeNode]
  have hold (k : Nat) (hk : k < g.nextId) : mid.label? k = (g.removeNode s).label? k :=
    Diagram.label?_divert (by rwa [Diagram.nextId_removeNode])
  have hnew : (mid.relabel c (.const w)).label? c = some (.const w) :=
    Diagram.label?_relabel_self (hf.contains_divert_target hg)
  refine hf.budget_lt hg hids (hnext ▸ Nat.le_add_right _ _) ?_ ?_ ?_ ?_
  · intro k hk hkc
    rw [Diagram.label?_relabel, if_neg hkc, hold k hk]
  · intro k hk _
    rw [Diagram.above_relabel, Diagram.below_relabel]
    exact ⟨Diagram.length_above_divert_le hcoh hids' .copy hk,
      Diagram.length_below_divert_le hcoh hids' hps .copy hk⟩
  · intro k hk
    have hkc : k ≠ c := by omega
    refine chargeAt_le_one fun l hl => ?_
    rw [Diagram.label?_relabel, if_neg hkc] at hl
    obtain ⟨p, -, hl', hup, hdown⟩ := Diagram.divert_new (c := c) hcoh hids' .copy
      (by rwa [Diagram.nextId_removeNode]) (Diagram.contains_iff_label?.2 ⟨l, hl⟩)
    rw [hl, Option.some.injEq] at hl'
    rw [Diagram.above_relabel, Diagram.below_relabel, hup.length_eq, hdown.length_eq, hl']
    exact .copy
  -- the charge of the gate counts each of its arguments, and the constant that it becomes none
  · have hdown : (mid.below c).length ≤ (g.below c).length := by
      rw [← hf.below_removeNode hg hcs]
      exact Diagram.length_below_divert_le hcoh hids' hps .copy hcontains
    have hlen := hf.length_above_target hg
    have hpaid := Gate.le_charge_of_isVariadic hlabel (g.above c).length (g.below c).length
    have hnext' : (mid.relabel c (.const w)).nextId = mid.nextId := rfl
    rw [chargeAt_eq_charge hnew, chargeAt_eq_charge hc, Gate.charge_const, Diagram.below_relabel,
      hnext', hnext]
    omega

/-- The argument that goes pays for a negation of each result. -/
theorem budget_negate_lt (hc : g.label? c = some .xor) {ts : List Nat}
    (hts : ∀ t, t ∈ ts ↔ t ∈ (g.removeNode s).below c) :
    budget ((g.removeNode s).interpose .not c ts) < g.budget := by
  have hcs := (hf.ne hg).symm
  have hcoh := hg.removeNode s
  have hids' := hids.removeNode s
  have hcontains := hf.contains_removeNode_target hg
  have hcnext : c < g.nextId := hids c (hf.contains_target hg)
  set h := (g.removeNode s).interpose .not c ts with hh
  have hnext : h.nextId = g.nextId + (g.below c).length := by
    rw [hh, Diagram.nextId_interpose, Diagram.nextId_removeNode, hf.below_removeNode hg hcs]
  have hold (k : Nat) (hk : k < g.nextId) : h.label? k = (g.removeNode s).label? k :=
    Diagram.label?_interpose (by rwa [Diagram.nextId_removeNode])
  have hlen (k : Nat) (hk : (g.removeNode s).contains k = true) :
      (h.above k).length ≤ ((g.removeNode s).above k).length ∧
        (h.below k).length ≤ ((g.removeNode s).below k).length :=
    ⟨Diagram.length_above_interpose_le hcoh hids' hts .not hk,
      Diagram.length_below_interpose_le hcoh hids' hts .not hk⟩
  refine hf.budget_lt hg hids (hnext ▸ Nat.le_add_right _ _) (fun k hk _ => hold k hk)
    (fun k hk _ => hlen k hk) ?_ ?_
  · intro k hk
    refine chargeAt_le_one fun l hl => ?_
    obtain ⟨t, -, hl', hup, hdown⟩ := Diagram.interpose_new (c := c) hcoh hids' .not
      (by rwa [Diagram.nextId_removeNode]) (Diagram.contains_iff_label?.2 ⟨l, hl⟩)
    rw [hl, Option.some.injEq] at hl'
    rw [hup.length_eq, hdown.length_eq, hl']
    exact .not
  · have hkept : h.label? c = some .xor :=
      (hold c hcnext).trans (hf.label?_removeNode_target hg hc)
    obtain ⟨hup, hdown⟩ := hlen c hcontains
    rw [hf.below_removeNode hg hcs] at hdown
    have hpaid := Gate.charge_mono .xor hup hdown
    rw [chargeAt_eq_charge hkept, chargeAt_eq_charge hc, ← hf.length_above_target hg,
      Gate.charge_xor_succ, hnext]
    omega

end Feeds

/-! ## The other folds -/

/-- A variadic gate without arguments becomes a source. -/
theorem budget_settle_lt (hids : g.IdsBelow) (hc : g.label? c = some label)
    (hlabel : label.isVariadic = true) (habove : g.above c = []) (w : Bool) :
    budget (g.relabel c (.const w)) < g.budget := by
  have hcg : g.contains c = true := Diagram.contains_iff_label?.2 ⟨label, hc⟩
  have hnew : (g.relabel c (.const w)).label? c = some (.const w) :=
    Diagram.label?_relabel_self hcg
  have hpaid := Gate.le_charge_of_isVariadic hlabel 0 (g.below c).length
  have hlt : chargeAt (g.relabel c (.const w)) c < g.chargeAt c := by
    rw [chargeAt_eq_charge hnew, chargeAt_eq_charge hc, Gate.charge_const, Diagram.below_relabel,
      habove, List.length_nil]
    omega
  refine Nat.add_lt_add_left (Finset.sum_lt_sum (fun k _ => ?_)
    ⟨c, Finset.mem_range.2 (hids c hcg), hlt⟩) g.nextId
  by_cases hk : k = c
  · rw [hk]
    exact Nat.le_of_lt hlt
  · refine chargeAt_le (by rw [Diagram.label?_relabel, if_neg hk]) fun _ => ?_
    rw [Diagram.above_relabel, Diagram.below_relabel]
    exact ⟨Nat.le_refl _, Nat.le_refl _⟩

/-- A source with several uses pays for a source for each of them. -/
theorem budget_split_lt (hg : g.Coherent) (hids : g.IdsBelow) (hs : g.label? s = some (.const v))
    (habove : g.above s = []) (hmany : 1 < (g.below s).length) :
    budget ((g.removeNode s).feed (.const v) (g.below s)) < g.budget := by
  have hsg : g.contains s = true := Diagram.contains_iff_label?.2 ⟨_, hs⟩
  have hids' := hids.removeNode s
  have hts : ∀ t ∈ g.below s, (g.removeNode s).contains t = true := fun _ ht =>
    hg.contains_child_removeNode habove ht
  set h : Circuit := (g.removeNode s).feed (.const v) (g.below s) with hh
  have hnext : h.nextId = g.nextId + (g.below s).length := by
    rw [hh, Diagram.nextId_feed, Diagram.nextId_removeNode]
  have hold (k : Nat) (hk : k < g.nextId) : h.label? k = (g.removeNode s).label? k :=
    Diagram.label?_feed (by rwa [Diagram.nextId_removeNode])
  have hgone : h.chargeAt s = 0 :=
    chargeAt_eq_zero (by rw [hold s (hids s hsg), Diagram.label?_removeNode, if_pos rfl])
  rw [budget_eq_sum, budget_eq_sum]
  refine sum_range_lt (T := {s}) 2 (hnext ▸ Nat.le_add_right _ _) ?_ ?_ ?_ ?_
  · intro k hk
    exact Finset.mem_singleton.1 hk ▸ hids s hsg
  · intro k hk hks
    rw [Finset.mem_singleton] at hks
    refine Nat.succ_le_succ (chargeAt_le
      (by rw [hold k hk, Diagram.label?_removeNode, if_neg hks]) fun hc => ?_)
    have hkc := Diagram.contains_removeNode_iff.2 ⟨hc, hks⟩
    -- what a child of the source loses it gets back in new parents
    obtain ⟨new, -, hlen, hup⟩ := Diagram.above_feed hids' hts (.const v) hkc
    rw [hup.length_eq, (Diagram.below_feed hids' hts (.const v) hkc).length_eq,
      List.length_append, hlen, ← hg.agree, hg.above_removeNode, if_neg hks, length_filter_ne,
      hg.below_removeNode_source habove hks]
    exact ⟨Nat.le_refl _, Nat.le_refl _⟩
  · intro k hk
    refine Nat.succ_le_succ (chargeAt_le_one fun l hl => ?_)
    obtain ⟨t, -, hl', hup, hdown⟩ := Diagram.feed_new hids' hts (.const v)
      (by rwa [Diagram.nextId_removeNode]) (Diagram.contains_iff_label?.2 ⟨l, hl⟩)
    rw [hl, Option.some.injEq] at hl'
    rw [hup.length_eq, hdown.length_eq, hl']
    exact .const v
  · rw [Finset.sum_singleton, Finset.sum_singleton, hgone, chargeAt_eq_charge hs,
      Gate.charge_const, hnext]
    omega

/-- **Folds lower the budget**: each makes fewer ids than it takes off the charge. -/
theorem Folds.budget_lt (hfold : Folds g h) (hg : g.Coherent) (hids : g.IdsBelow) :
    h.budget < g.budget := by
  cases hfold with
  | resolve hf hc hlabel => exact hf.budget_resolve_lt hg hids hc _
  | drop hf hc hv => exact hf.budget_drop_lt hids
  | absorb hf hc hv ps hps =>
    exact hf.budget_absorb_lt hg hids hc (Gate.isVariadic_of_absorbing? hv) hps _
  | negate hf hc ts hts => exact hf.budget_negate_lt hg hids hc hts
  | settle hc hv habove =>
    exact budget_settle_lt hids hc (Gate.isVariadic_of_neutral? hv) habove _
  | split hs habove hmany => exact budget_split_lt hg hids hs habove hmany

theorem Folds.nextId_le (hfold : Folds g h) : g.nextId ≤ h.nextId := by
  cases hfold with
  | resolve =>
    rw [Diagram.nextId_removeNode]
    exact Nat.le_refl _
  | drop => rw [Diagram.nextId_removeNode]
  | settle => exact Nat.le_refl _
  | absorb =>
    show g.nextId ≤ (Diagram.divert _ _ _ _).nextId
    rw [Diagram.nextId_divert, Diagram.nextId_removeNode]
    exact Nat.le_add_right _ _
  | negate =>
    rw [Diagram.nextId_interpose, Diagram.nextId_removeNode]
    exact Nat.le_add_right _ _
  | split =>
    rw [Diagram.nextId_feed, Diagram.nextId_removeNode]
    exact Nat.le_add_right _ _

/-- **Folds lower the charge.** -/
theorem Folds.charge_lt (hfold : Folds g h) (hg : g.Coherent) (hids : g.IdsBelow) :
    h.charge < g.charge := by
  have hbudget := hfold.budget_lt hg hids
  have hnext := hfold.nextId_le
  rw [budget, budget] at hbudget
  omega

/-- **Folds keep a circuit coherent**, whatever its cycles and its terminals. -/
theorem Folds.coherent (hfold : Folds g h) (hg : g.Coherent) (hids : g.IdsBelow) :
    h.Coherent ∧ h.IdsBelow := by
  cases hfold with
  | @resolve s v c label hf hc hlabel =>
    exact ⟨(hg.relabel c _).removeNode s, (hids.relabel c _).removeNode s⟩
  | @drop s v c label hf hc hv => exact ⟨hg.removeNode s, hids.removeNode s⟩
  | @absorb s v c label hf hc hv ps hps =>
    exact ⟨((hg.removeNode s).divert (hids.removeNode s)).relabel c _,
      (hids.removeNode s).divert.relabel c _⟩
  | @negate s c hf hc ts hts =>
    exact ⟨(hg.removeNode s).interpose (hids.removeNode s), (hids.removeNode s).interpose⟩
  | @settle c v label hc hv habove => exact ⟨hg.relabel c _, hids.relabel c _⟩
  | @split s v hs habove hmany =>
    exact ⟨(hg.removeNode s).feed (hids.removeNode s) fun t ht =>
      hg.contains_child_removeNode habove ht, (hids.removeNode s).feed⟩

theorem coherent_of_transGen (hfolds : Relation.TransGen Folds g h) (hg : g.Coherent)
    (hids : g.IdsBelow) : h.Coherent ∧ h.IdsBelow := by
  induction hfolds with
  | single hfold => exact hfold.coherent hg hids
  | tail _ hfold ih => exact hfold.coherent ih.1 ih.2

theorem budget_lt_of_transGen (hfolds : Relation.TransGen Folds g h) (hg : g.Coherent)
    (hids : g.IdsBelow) : h.budget < g.budget := by
  induction hfolds with
  | single hfold => exact hfold.budget_lt hg hids
  | tail hfolds hfold ih =>
    obtain ⟨hmid, hmids⟩ := coherent_of_transGen hfolds hg hids
    exact (hfold.budget_lt hmid hmids).trans ih

theorem charge_lt_of_transGen (hfolds : Relation.TransGen Folds g h) (hg : g.Coherent)
    (hids : g.IdsBelow) : h.charge < g.charge := by
  induction hfolds with
  | single hfold => exact hfold.charge_lt hg hids
  | tail hfolds hfold ih =>
    obtain ⟨hmid, hmids⟩ := coherent_of_transGen hfolds hg hids
    exact (hfold.charge_lt hmid hmids).trans ih

end Circuit

end Wiring
