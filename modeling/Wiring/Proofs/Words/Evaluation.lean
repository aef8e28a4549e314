import Mathlib.Algebra.BigOperators.Group.Finset.Piecewise
import Mathlib.Algebra.BigOperators.Ring.List
import Mathlib.Tactic.Ring
import Wiring.Proofs.Circuit.RuleAnswers
import Wiring.Proofs.Circuit.Termination
import Wiring.Proofs.Words.Folding

/-!
# Evaluation within words

Folding raises neither the budget of a circuit nor its charge, and the charge is not less than any
degree. So whoever has room for the budget and for three times the charge has room for every rule,
now and after any number of rules that have fired. At the start both are bounded by the next id and
the number of nodes and edge ends.

## Main definitions

- `Circuit.extent` — the number of nodes and of the ends of edges
- `Circuit.RoomFor`, `Circuit.HasRoom` — words hold whatever evaluation may come to need
- `Circuit.Affords` — what words go on to hold while a circuit is folded

## Main statements

- `Circuit.HasRoom.affords` — a circuit that there is room for affords to be folded
- `Circuit.Affords.spacious` — there is room for any rule
- `Circuit.Affords.normalize_eq`, `Circuit.Affords.evaluateWithin_eq` — normalizing and evaluation
-/

namespace Wiring.Circuit

/-- **The extent of a circuit**: the number of its nodes and of the ends of edges at them, however
    many a word can hold. -/
def extent (g : Circuit) : Nat := g.sumOf fun n => (letI _ := Unlimited.words; n.degree) + 1

variable {β : Type} {g h : Circuit} {k n : Nat}

/-! ## Degrees, the extent and the charge -/

section Unlimited

open scoped Unlimited

theorem sum_lookup_le {β : Type} (l : List (Nat × β)) (f : β → Nat) (n : Nat) :
    ∑ k ∈ Finset.range n, (l.lookup k).elim 0 f ≤ (l.map fun e => f e.2).sum := by
  induction l with
  | nil => simp
  | cons e l ih =>
    obtain ⟨i, v⟩ := e
    -- the entry is found under one key at most
    calc ∑ k ∈ Finset.range n, (((i, v) :: l).lookup k).elim 0 f
        ≤ ∑ k ∈ Finset.range n, ((if k = i then f v else 0) + (l.lookup k).elim 0 f) := by
          apply Finset.sum_le_sum
          intro k _
          rw [List.lookup_cons]
          by_cases hk : k = i
          · simp [hk]
          · have : (k == i) = false := by simpa using hk
            simp [hk, this]
      _ = (∑ k ∈ Finset.range n, if k = i then f v else 0) +
            ∑ k ∈ Finset.range n, (l.lookup k).elim 0 f := Finset.sum_add_distrib
      _ ≤ f v + (l.map fun e => f e.2).sum := by
          refine Nat.add_le_add ?_ ih
          rw [Finset.sum_ite_eq']
          split
          · exact Nat.le_refl _
          · exact Nat.zero_le _

/-- The sum of a quantity over all ids that have a node is its sum over the nodes. -/
theorem sum_node?_le (g : Circuit) (f : Node Gate → Nat) :
    ∑ k ∈ Finset.range g.nextId, (g.node? k).elim 0 f ≤ (g.nodes.values.map f).sum := by
  rw [IdMap.values, List.map_map]
  exact sum_lookup_le g.nodes.entries f g.nextId

theorem extent_eq_sum (g : Circuit) :
    g.extent = (g.nodes.values.map fun n => n.degree + 1).sum :=
  Diagram.sumOf_eq_sum g _

theorem length_le_extent (g : Circuit) (k : Nat) :
    (g.above k).length ≤ g.extent ∧ (g.below k).length ≤ g.extent := by
  cases hk : g.node? k with
  | none =>
    have hnot : g.contains k = false := by rw [Diagram.contains_eq_isSome, hk]; rfl
    rw [Diagram.above_eq_nil hnot, Diagram.below_eq_nil hnot]
    exact ⟨Nat.zero_le _, Nat.zero_le _⟩
  | some n =>
    have hle : n.indegree + n.outdegree + 1 ≤ g.extent := by
      rw [extent_eq_sum]
      exact List.single_le_sum (fun _ _ => Nat.zero_le _) _
        (List.mem_map_of_mem (f := fun n => n.degree + 1) (IdMap.mem_values_iff.2 ⟨k, hk⟩))
    rw [Diagram.length_above_of_node? hk, Diagram.length_below_of_node? hk]
    omega

theorem sum_map_mul_self_le (l : List Nat) : (l.map fun a => a * a).sum ≤ l.sum * l.sum := by
  induction l with
  | nil => exact Nat.le_refl 0
  | cons a l ih =>
    rw [List.map_cons, List.sum_cons, List.sum_cons, Nat.add_mul, Nat.mul_add, Nat.mul_add]
    omega

theorem charge_le_extent (g : Circuit) :
    g.charge ≤ 4 * g.extent + g.extent * g.extent := by
  have hcharge (k : Nat) : g.chargeAt k ≤
      (g.node? k).elim 0 fun n => 4 * (n.degree + 1) + (n.degree + 1) * (n.degree + 1) := by
    rw [chargeAt, Diagram.label?, Diagram.above, Diagram.below]
    cases g.node? k with
    | none => exact Nat.le_refl 0
    | some n =>
      show n.label.charge n.parents.spread.length n.children.spread.length ≤ _
      rw [Tally.length_spread, Tally.length_spread]
      exact n.label.charge_le n.indegree n.outdegree
  have hsquares := sum_map_mul_self_le (g.nodes.values.map fun n => n.degree + 1)
  rw [List.map_map, ← extent_eq_sum] at hsquares
  calc g.charge ≤ ∑ k ∈ Finset.range g.nextId, (g.node? k).elim 0 fun n =>
        4 * (n.degree + 1) + (n.degree + 1) * (n.degree + 1) :=
          Finset.sum_le_sum fun k _ => hcharge k
    _ ≤ (g.nodes.values.map fun n =>
        4 * (n.degree + 1) + (n.degree + 1) * (n.degree + 1)).sum := sum_node?_le g _
    _ = 4 * g.extent + (g.nodes.values.map fun n => (n.degree + 1) * (n.degree + 1)).sum := by
          rw [List.sum_map_add, List.sum_map_mul_left, extent_eq_sum]
    _ ≤ 4 * g.extent + g.extent * g.extent := Nat.add_le_add_left hsquares _

theorem charge_lt_extent (g : Circuit) :
    g.charge < (2 * g.extent + 1) * (2 * g.extent + 1) := by
  have hle := charge_le_extent g
  have hsquare : (2 * g.extent + 1) * (2 * g.extent + 1) =
      4 * (g.extent * g.extent) + 4 * g.extent + 1 := by ring
  omega

theorem chargeAt_le_charge (hk : k < g.nextId) : g.chargeAt k ≤ g.charge :=
  Finset.single_le_sum (fun _ _ => Nat.zero_le _) (Finset.mem_range.2 hk)

theorem length_below_le_chargeAt (g : Circuit) (k : Nat) : (g.below k).length ≤ g.chargeAt k := by
  cases hl : g.label? k with
  | none =>
    rw [Diagram.below_eq_nil]
    · exact Nat.zero_le _
    · rw [← Bool.not_eq_true, Diagram.contains_iff_label?, hl]
      simp
  | some label =>
    rw [chargeAt_eq_charge hl, Gate.charge]
    omega

/-- **Degrees are not larger than the charge**: all edges into a node go out of some other one. -/
theorem length_le_charge (hg : g.Coherent) (hids : g.IdsBelow) (k : Nat) :
    (g.above k).length ≤ g.charge ∧ (g.below k).length ≤ g.charge := by
  constructor
  · have hsub : (g.above k).toFinset ⊆ Finset.range g.nextId := fun p hp =>
      Finset.mem_range.2 (hids p (hg.contains_of_mem_above (List.mem_toFinset.1 hp)))
    calc (g.above k).length = ∑ p ∈ (g.above k).toFinset, (g.above k).count p :=
          (List.sum_toFinset_count_eq_length _).symm
      _ ≤ ∑ p ∈ Finset.range g.nextId, (g.above k).count p :=
          Finset.sum_le_sum_of_subset hsub
      _ ≤ g.charge := Finset.sum_le_sum fun p _ => by
          rw [hg.agree]
          exact List.count_le_length.trans (length_below_le_chargeAt g p)
  · by_cases hk : k < g.nextId
    · exact (length_below_le_chargeAt g k).trans (chargeAt_le_charge hk)
    · rw [Diagram.below_eq_nil (hids.not_contains (Nat.le_of_not_lt hk))]
      exact Nat.zero_le _

end Unlimited

variable [Words]

/-! ## Room for rules -/

/-- **Words have room for evaluation** where the next id is at most `ids` and there are at most
    `ends` nodes and ends of edges: for `ids` and for four times what bounds the charge. -/
def RoomFor (ids ends : Nat) : Prop := Words.Holds (ids + 4 * ((2 * ends + 1) * (2 * ends + 1)))

/-- Words have room for the evaluation of `g`. -/
def HasRoom (g : Circuit) : Prop := RoomFor g.nextId g.extent

instance (ids ends : Nat) : Decidable (RoomFor ids ends) :=
  inferInstanceAs (Decidable (Words.Holds _))

instance (g : Circuit) : Decidable g.HasRoom := inferInstanceAs (Decidable (RoomFor _ _))

theorem RoomFor.mono {ids ids' ends ends' : Nat} (h : RoomFor ids ends) (hids : ids' ≤ ids)
    (hends : ends' ≤ ends) : RoomFor ids' ends' := by
  refine Words.Holds.mono h (Nat.add_le_add hids (Nat.mul_le_mul_left 4 ?_))
  exact Nat.mul_le_mul (by omega) (by omega)

/-- **What a circuit affords** it goes on to afford while it is folded. -/
structure Affords (g : Circuit) : Prop where
  coherent : g.Coherent
  idsBelow : g.IdsBelow
  room : Words.Holds (g.budget + 3 * g.charge)

theorem HasRoom.affords (hg : g.HasRoom) (hcoherent : g.Coherent) (hids : g.IdsBelow) :
    g.Affords := by
  refine ⟨hcoherent, hids, Words.Holds.mono hg ?_⟩
  have := charge_lt_extent g
  rw [budget]
  omega

namespace Affords

variable (hg : g.Affords)
include hg

theorem of_le (hcoherent : h.Coherent ∧ h.IdsBelow) (hbudget : h.budget ≤ g.budget)
    (hcharge : h.charge ≤ g.charge) : h.Affords :=
  ⟨hcoherent.1, hcoherent.2, hg.room.mono (by omega)⟩

/-- **There is room for any rule.** -/
theorem spacious : g.Spacious := by
  have hle := length_le_charge hg.coherent hg.idsBelow
  have hroomy (n : Nat) (hn : n ≤ g.charge) : g.Roomy (3 * n) := by
    refine ⟨hg.room.mono ?_, fun k => ⟨hg.room.mono ?_, hg.room.mono ?_⟩⟩
    · rw [budget]
      omega
    · have := (hle k).1
      rw [budget]
      omega
    · have := (hle k).2
      rw [budget]
      omega
  exact fun k => ⟨hroomy _ (hle k).1, hroomy _ (hle k).2⟩

theorem removeNodes (ids : List Nat) : Affords (g.removeNodes ids) := by
  induction ids generalizing g with
  | nil => exact hg
  | cons i ids ih =>
    have hcharge := charge_removeNode_le g i
    have hbudget : budget (g.removeNode i) ≤ g.budget := by
      rw [budget, budget, Diagram.nextId_removeNode]
      exact Nat.add_le_add_left hcharge _
    exact ih (hg.of_le ⟨hg.coherent.removeNode i, hg.idsBelow.removeNode i⟩ hbudget hcharge)

theorem of_transGen (hfolds : Relation.TransGen Folds g h) : h.Affords :=
  hg.of_le (coherent_of_transGen hfolds hg.coherent hg.idsBelow)
    (Nat.le_of_lt (budget_lt_of_transGen hfolds hg.coherent hg.idsBelow))
    (Nat.le_of_lt (charge_lt_of_transGen hfolds hg.coherent hg.idsBelow))

theorem of_foldsOrNot {e : Edit Gate Bool} {fired : Bool} (he : FoldsOrNot e g)
    (hrun : e.runOn g = (.ok fired, h)) : h.Affords := by
  rcases he fired h hrun with ⟨-, hfolds⟩ | ⟨-, rfl⟩
  · exact hg.of_transGen hfolds
  · exact hg

/-! ## Passes -/

theorem fireAll_eq (rule : Rule) (ids : List Nat) :
    (fireAll rule ids).runOn g = letI := Unlimited.words; (fireAll rule ids).runOn g := by
  induction ids generalizing g with
  | nil => rfl
  | cons k ids ih =>
    unfold fireAll
    refine Edit.runOn_bind_congr (fire_eq hg.spacious rule k) fun fired h hrun => ?_
    rw [fire_eq hg.spacious] at hrun
    have hh := hg.of_foldsOrNot (fire_foldsOrNot hg.coherent hg.idsBelow rule k) hrun
    exact Edit.runOn_bind_congr (ih hh) fun _ _ _ => rfl

theorem of_fireAll {rule : Rule} {ids : List Nat} {fired : Bool}
    (hrun : (fireAll rule ids).runOn g = (.ok fired, h)) : h.Affords := by
  rw [hg.fireAll_eq] at hrun
  exact hg.of_foldsOrNot (fireAll_foldsOrNot hg.coherent hg.idsBelow rule ids) hrun

theorem prune_eq : (Edit.prune : Edit Gate Nat).runOn g =
    letI := Unlimited.words; (Edit.prune : Edit Gate Nat).runOn g := by
  show (Except.ok g.prune.2, g.prune.1) = _
  rw [hg.spacious.degreesHold.prune_eq hg.coherent]
  rfl

theorem of_prune {count : Nat} (hrun : Edit.prune.runOn g = (.ok count, h)) : h.Affords := by
  obtain rfl : g.prune.1 = h := (Prod.mk.inj hrun).2
  exact Diagram.of_prune (fun _ hg => hg.removeNodes _) hg

/-- **A pass within words.** -/
theorem pass_eq : pass.runOn g = letI := Unlimited.words; pass.runOn g := by
  have hdegrees := hg.spacious.degreesHold
  unfold pass
  rw [runOn_get_bind, runOn_get_bind, sources_eq hdegrees, emptyGates_eq hdegrees]
  refine Edit.runOn_bind_congr (hg.fireAll_eq _ _) fun _ h₁ hrun₁ => ?_
  have hg₁ := hg.of_fireAll hrun₁
  refine Edit.runOn_bind_congr (hg₁.fireAll_eq _ _) fun _ h₂ hrun₂ => ?_
  exact Edit.runOn_bind_congr (hg₁.of_fireAll hrun₂).prune_eq fun _ _ _ => rfl

theorem of_pass {changed : Bool} (hrun : pass.runOn g = (.ok changed, h)) : h.Affords := by
  unfold pass at hrun
  rw [runOn_get_bind, Edit.runOn_bind_eq_ok_iff] at hrun
  obtain ⟨_, h₁, hrun₁, hrun⟩ := hrun
  rw [Edit.runOn_bind_eq_ok_iff] at hrun
  obtain ⟨_, h₂, hrun₂, hrun⟩ := hrun
  rw [Edit.runOn_bind_eq_ok_iff] at hrun
  obtain ⟨_, h₃, hrun₃, hrun⟩ := hrun
  obtain rfl := (Prod.mk.inj hrun).2
  exact ((hg.of_fireAll hrun₁).of_fireAll hrun₂).of_prune hrun₃

theorem passes_eq (n : Nat) : (Edit.repeated (discard pass) n).runOn g =
    letI := Unlimited.words; (Edit.repeated (discard pass) n).runOn g := by
  induction n generalizing g with
  | zero => rw [Edit.repeated, Edit.repeated]
  | succ n ih =>
    rw [Edit.repeated, Edit.repeated, Edit.discard_eq_bind, Edit.discard_eq_bind, bind_assoc,
      bind_assoc]
    exact Edit.runOn_bind_congr hg.pass_eq fun _ _ hrun => ih (hg.of_pass hrun)

theorem of_passes (hrun : (Edit.repeated (discard pass) n).runOn g = (.ok (), h)) :
    h.Affords := by
  induction n generalizing g with
  | zero =>
    obtain rfl := (Prod.mk.inj hrun).2
    exact hg
  | succ n ih =>
    rw [Edit.repeated, Edit.discard_eq_bind, bind_assoc, Edit.runOn_bind_eq_ok_iff] at hrun
    obtain ⟨_, mid, hpass, hrun⟩ := hrun
    exact ih (hg.of_pass hpass) hrun

theorem normalizeUpTo_eq (n : Nat) :
    (normalizeUpTo n).runOn g = letI := Unlimited.words; (normalizeUpTo n).runOn g := by
  induction n generalizing g with
  | zero => rfl
  | succ n ih =>
    unfold normalizeUpTo
    refine Edit.runOn_bind_congr hg.pass_eq fun changed h hrun => ?_
    split
    · exact Edit.runOn_bind_congr (ih (hg.of_pass hrun)) fun _ _ _ => rfl
    · rfl

theorem of_normalizeUpTo {passes : Nat} (hrun : (normalizeUpTo n).runOn g = (.ok passes, h)) :
    h.Affords := by
  induction n generalizing g passes with
  | zero =>
    obtain rfl := (Prod.mk.inj hrun).2
    exact hg
  | succ n ih =>
    rw [normalizeUpTo, Edit.runOn_bind_eq_ok_iff] at hrun
    obtain ⟨changed, mid, hpass, hrun⟩ := hrun
    have hmid := hg.of_pass hpass
    split at hrun
    · rw [Edit.runOn_bind_eq_ok_iff] at hrun
      obtain ⟨_, _, hrest, hrun⟩ := hrun
      obtain rfl := (Prod.mk.inj hrun).2
      exact ih hmid hrest
    · obtain rfl := (Prod.mk.inj hrun).2
      exact hmid

theorem normalize_eq (limit : Option Nat) :
    (normalize limit).runOn g = letI := Unlimited.words; (normalize limit).runOn g := by
  cases limit with
  | some limit => exact hg.normalizeUpTo_eq limit
  | none =>
    have hstored := hg.coherent.stored
    obtain ⟨n, hn⟩ := exists_normalizeUpTo hstored
    obtain ⟨m, hm⟩ := letI := Unlimited.words; exists_normalizeUpTo hstored
    rw [← hn (n + m) (Nat.le_add_right n m), ← hm (n + m) (Nat.le_add_left m n)]
    exact hg.normalizeUpTo_eq (n + m)

theorem of_normalize {limit : Option Nat} {passes : Nat}
    (hrun : (normalize limit).runOn g = (.ok passes, h)) : h.Affords := by
  cases limit with
  | some limit => exact hg.of_normalizeUpTo hrun
  | none =>
    obtain ⟨n, hn⟩ := exists_normalizeUpTo hg.coherent.stored
    rw [← hn n (Nat.le_refl n)] at hrun
    exact hg.of_normalizeUpTo hrun

/-- **Evaluation within words.** -/
theorem evaluateWithin_eq (limit : Option Nat) :
    evaluateWithin limit g = letI := Unlimited.words; evaluateWithin limit g := by
  unfold evaluateWithin
  rw [hg.normalize_eq]

theorem evaluate_eq : evaluate g = letI := Unlimited.words; evaluate g :=
  hg.evaluateWithin_eq none

end Affords

/-! ## Sound circuits -/

namespace HasRoom

variable (hroom : g.HasRoom)
include hroom

theorem degreesHold : g.DegreesHold := by
  have hbound :
      g.extent ≤ g.nextId + 4 * ((2 * g.extent + 1) * (2 * g.extent + 1)) := by
    have := Nat.le_mul_self (2 * g.extent + 1)
    omega
  exact fun k _ => ⟨Words.Holds.mono hroom ((length_le_extent g k).1.trans hbound),
    Words.Holds.mono hroom ((length_le_extent g k).2.trans hbound)⟩

/-- **A sound circuit that there is room for** is sound without a limit, and folding has room. -/
theorem sound (hg : g.Sound) : (letI _ := Unlimited.words; g.Sound) ∧ g.Affords := by
  have hg' := (sound_iff_of_degreesHold hroom.degreesHold).1 hg
  exact ⟨hg', hroom.affords hg'.lax.coherent hg'.lax.idsBelow⟩

end HasRoom

end Wiring.Circuit
