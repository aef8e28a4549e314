import Wiring.Circuit.Evaluation
import Wiring.Proofs.Circuit.Charge
import Wiring.Proofs.Circuit.RuleRuns

/-!
# What the answer of a rule says

On a circuit that is coherent but otherwise arbitrary a rule may be refused, because the new nodes
that it needs would be joined to terminals. If it is not, then it has folded and says so, or it says
that it has not and has left the circuit as it was.

## Main definitions

- `Circuit.FoldsOrNot` — an edit that, unless refused, folds or does nothing

## Main statements

- `Circuit.fire_foldsOrNot`, `Circuit.fireAll_foldsOrNot` — rules at one node and at many
-/

namespace Wiring

open scoped Unlimited

namespace Circuit

variable {g h : Circuit} {s c k : Nat} {v : Bool} {label : Gate}

/-! ## Answers of the pieces -/

theorem eq_of_runOn_feedAll {t : Tally} (hc : ∀ k ∈ t.spread, g.contains k = true)
    (ht : t.Positive) (hrun : (feedAll v t).runOn g = (.ok ⟨⟩, h)) :
    h = g.feed (.const v) t.spread := by
  have hloop := hrun
  rw [feedAll] at hloop
  have hhosts := Edit.hosts_of_runOn_forM ht (fun _ => []) (fun k => [k]) (fun _ g => g)
    (fun _ _ => rfl) (fun _ _ => rfl) (fun _ _ => rfl)
    (fun k hk => by simpa using hc k (ht.mem_keys.1 hk)) hloop
  have hfed := runOn_feedAll (g := g) (v := v) (t := t)
    (fun k hk => (hhosts k (ht.mem_keys.2 hk)).child k (List.mem_singleton_self k)) ht
  rw [hfed, Prod.mk.injEq] at hrun
  exact hrun.2.symm

theorem eq_of_runOn_absorb (hg : g.Coherent) (hids : g.IdsBelow) (hc : g.contains c = true)
    (hrun : (absorb c v).runOn g = (.ok ⟨⟩, h)) :
    ∃ ps : List Nat, (∀ p, p ∈ ps ↔ p ∈ g.above c) ∧
      h = (g.divert .copy c ps).relabel c (.const v) := by
  obtain ⟨n, hn⟩ := Diagram.contains_iff.1 hc
  have hpos := (hg.positive c n hn).1
  have hmem (p : Nat) (hp : p ∈ n.parents.keys) : p ∈ g.above c := by
    rw [Diagram.above_of_node? hn]
    exact hpos.mem_keys.1 hp
  have hdivert := hrun
  rw [absorb, Edit.runOn_ask_bind, Diagram.find_eq_ok_iff.2 hn] at hdivert
  dsimp only at hdivert
  rw [Edit.runOn_bind_eq_ok_iff] at hdivert
  obtain ⟨_, mid, hdivert, -⟩ := hdivert
  have hhosts := Edit.hosts_of_runOn_forM hpos (fun p => [p]) (fun _ => [])
    (fun e => (·.sever e.1 c)) (fun _ _ => Edit.runOn_bind_ok (Edit.runOn_change _ _) _)
    (fun _ _ => Diagram.inputs_sever) (fun _ _ => Diagram.outputs_sever)
    (fun p hp => by simpa using hg.contains_of_mem_above (hmem p hp)) hdivert
  obtain ⟨ps, hps, hdone⟩ := runOn_absorb (v := v) hg hids hc fun p hp => by
    rw [Diagram.above_of_node? hn] at hp
    exact ((hhosts p (hpos.mem_keys.2 hp)).parent p (List.mem_singleton_self p)).2
  rw [hdone, Prod.mk.injEq] at hrun
  exact ⟨ps, hps, hrun.2.symm⟩

theorem eq_of_runOn_negateResults (hg : g.Coherent) (hids : g.IdsBelow)
    (hc : g.contains c = true) (hcout : c ∉ g.outputs)
    (hrun : (negateResults c).runOn g = (.ok ⟨⟩, h)) :
    ∃ ts : List Nat, (∀ t, t ∈ ts ↔ t ∈ g.below c) ∧ h = g.interpose .not c ts := by
  obtain ⟨n, hn⟩ := Diagram.contains_iff.1 hc
  have hpos := (hg.positive c n hn).2
  have hmem (t : Nat) (ht : t ∈ n.children.keys) : t ∈ g.below c := by
    rw [Diagram.below_of_node? hn]
    exact hpos.mem_keys.1 ht
  have hnegate := hrun
  rw [negateResults, Edit.runOn_ask_bind, Diagram.find_eq_ok_iff.2 hn] at hnegate
  have hhosts := Edit.hosts_of_runOn_forM hpos (fun _ => [c]) (fun t => [t])
    (fun e => (·.sever c e.1)) (fun _ _ => Edit.runOn_bind_ok (Edit.runOn_change _ _) _)
    (fun _ _ => Diagram.inputs_sever) (fun _ _ => Diagram.outputs_sever)
    (fun t ht => by simpa using ⟨hc, hg.contains_of_mem_below (hmem t ht)⟩) hnegate
  obtain ⟨ts, hts, hdone⟩ := runOn_negateResults hg hids hc hcout fun t ht => by
    rw [Diagram.below_of_node? hn] at ht
    exact ((hhosts t (hpos.mem_keys.2 ht)).child t (List.mem_singleton_self t)).2
  rw [hdone, Prod.mk.injEq] at hrun
  exact ⟨ts, hts, hrun.2.symm⟩

/-! ## The rules -/

/-- If the edit is not refused then it folds, or it does nothing; its answer tells which. -/
def FoldsOrNot (e : Edit Gate Bool) (g : Circuit) : Prop :=
  ∀ fired h, e.runOn g = (.ok fired, h) →
    fired = true ∧ Relation.TransGen Folds g h ∨ fired = false ∧ h = g

theorem FoldsOrNot.pure_false (g : Circuit) : FoldsOrNot (pure false) g := by
  intro fired h hrun
  rw [Edit.runOn_pure, Prod.mk.injEq, Except.ok.injEq] at hrun
  exact .inr ⟨hrun.1.symm, hrun.2.symm⟩

/-- An edit that has folded, and does no more than to say so. -/
theorem of_runOn_pure_true {mid : Circuit} {fired : Bool} (hfolds : Relation.TransGen Folds g mid)
    (hrun : (pure true : Edit Gate Bool).runOn mid = (.ok fired, h)) :
    fired = true ∧ Relation.TransGen Folds g h ∨ fired = false ∧ h = g := by
  rw [Edit.runOn_pure, Prod.mk.injEq, Except.ok.injEq] at hrun
  obtain ⟨hfired, rfl⟩ := hrun
  exact .inl ⟨hfired.symm, hfolds⟩

/-- A rule about sources that feed a certain kind of gate. -/
theorem foldsOrNot_feedsKind (hpos : g.Positive) (s : Nat) (kind : Gate → Bool)
    (body : Circuit → Bool → Nat → Edit Gate Bool)
    (h : ∀ v c label, Feeds g s v c → g.label? c = some label → kind label = true →
      FoldsOrNot (body g v c) g) :
    FoldsOrNot (get >>= fun g => match feedsKind? g s kind with
      | none => pure false
      | some (v, c) => body g v c) g := by
  intro fired h' hrun
  rw [runOn_get_bind] at hrun
  cases hkind : feedsKind? g s kind with
  | none =>
    rw [hkind] at hrun
    exact FoldsOrNot.pure_false g fired h' hrun
  | some e =>
    obtain ⟨v, c⟩ := e
    obtain ⟨hf, label, hc, hlabel⟩ := (feedsKind?_eq_some_iff hpos).1 hkind
    rw [hkind] at hrun
    exact h v c label hf hc hlabel fired h' hrun

/-- What the gate that a source settles feeds is neither of the two. -/
theorem Feeds.contains_result (hf : Feeds g s v c) (hg : g.Coherent)
    (hone : (g.above c).length = 1) (hk : k ∈ g.below c) :
    ((g.removeNode s).removeNode c).contains k = true := by
  rw [← hg.mem_above_iff] at hk
  refine Diagram.contains_removeNode_iff.2 ⟨Diagram.contains_removeNode_iff.2
    ⟨Diagram.contains_of_mem_above hk, ?_⟩, ?_⟩
  · rintro rfl
    rw [hf.above] at hk
    cases hk
  · rintro rfl
    rw [hf.above_eq_of_length hg hone, List.mem_singleton] at hk
    exact hf.ne hg hk.symm

section Rules

variable (hg : g.Coherent) (hids : g.IdsBelow)
include hg

theorem foldCopy_foldsOrNot (s : Nat) : FoldsOrNot (foldCopy s) g := by
  apply foldsOrNot_feedsKind hg.positive s _ _
  intro v c label hf hc hkind
  obtain rfl : label = .copy := by simpa using hkind
  obtain ⟨n, hn⟩ := Diagram.contains_iff.1 (hf.contains_target hg)
  have hfirst := Folds.resolve hf hc (.inl rfl)
  intro fired h hrun
  rw [Edit.runOn_ask_bind, Diagram.find_eq_ok_iff.2 hn] at hrun
  dsimp only at hrun
  split at hrun
  · exact FoldsOrNot.pure_false g fired h hrun
  · rename_i hin
    split at hrun
    · rw [Edit.runOn_bind_ok (Edit.runOn_setLabel (hf.contains_target hg)),
        Edit.runOn_bind_ok (Edit.runOn_change _ _)] at hrun
      exact of_runOn_pure_true (.single hfirst) hrun
    · -- the relabelled copy is a source with several uses, and splits at once
      rename_i hout
      have hone : (g.above c).length = 1 :=
        (Diagram.length_above_of_node? hn).trans (not_not.1 hin)
      have hmany : 1 < (g.below c).length := by
        rw [Diagram.length_below_of_node? hn]
        exact Nat.lt_of_not_le hout
      rw [Edit.runOn_bind_ok (Edit.runOn_change _ _), Edit.runOn_bind_eq_ok_iff] at hrun
      obtain ⟨_, mid, hfed, hrun⟩ := hrun
      have hmid := eq_of_runOn_feedAll (fun k hk => ?_) (hg.positive c n hn).2 hfed
      · rw [← Diagram.below_of_node? hn] at hmid
        subst hmid
        exact of_runOn_pure_true
          (.tail (.single hfirst) (hf.folds_split hg hone hmany)) hrun
      · rw [← Diagram.below_of_node? hn] at hk
        exact hf.contains_result hg hone hk

theorem foldNot_foldsOrNot (s : Nat) : FoldsOrNot (foldNot s) g := by
  apply foldsOrNot_feedsKind hg.positive s _ _
  intro v c label hf hc hkind
  obtain rfl : label = .not := by simpa using hkind
  obtain ⟨n, hn⟩ := Diagram.contains_iff.1 (hf.contains_target hg)
  intro fired h hrun
  rw [Edit.runOn_ask_bind, Diagram.find_eq_ok_iff.2 hn] at hrun
  dsimp only at hrun
  split at hrun
  · exact FoldsOrNot.pure_false g fired h hrun
  · rw [Edit.runOn_bind_ok (Edit.runOn_setLabel (hf.contains_target hg)),
      Edit.runOn_bind_ok (Edit.runOn_change _ _)] at hrun
    exact of_runOn_pure_true (.single (.resolve hf hc (.inr rfl))) hrun

include hids

theorem foldAndOr_foldsOrNot (s : Nat) : FoldsOrNot (foldAndOr s) g := by
  refine foldsOrNot_feedsKind hg.positive s _
    (fun g v c => do
      Edit.change (·.removeNodes [s])
      if (g.label? c).bind Gate.absorbing? = some v then absorb c v else pure ()
      pure true) ?_
  intro v c label hf hc hkind
  have hvariadic : label = .and ∨ label = .or := by simpa using hkind
  intro fired h hrun
  rw [Edit.runOn_bind_ok (Edit.runOn_change _ _), hc, Option.bind_some] at hrun
  by_cases hv : label.absorbing? = some v
  · rw [if_pos hv, Edit.runOn_bind_eq_ok_iff] at hrun
    obtain ⟨_, mid, habsorb, hrun⟩ := hrun
    obtain ⟨ps, hps, rfl⟩ := eq_of_runOn_absorb (hg.removeNode s) (hids.removeNode s)
      (hf.contains_removeNode_target hg) habsorb
    exact of_runOn_pure_true (.single (.absorb hf hc hv ps hps)) hrun
  · have hneutral : label.neutral? = some v := by
      rcases hvariadic with rfl | rfl <;> cases v <;> first | rfl | exact absurd rfl hv
    rw [if_neg hv] at hrun
    exact of_runOn_pure_true (.single (.drop hf hc hneutral)) hrun

theorem foldXor_foldsOrNot (s : Nat) : FoldsOrNot (foldXor s) g := by
  apply foldsOrNot_feedsKind hg.positive s _ _
  intro v c label hf hc hkind
  obtain rfl : label = .xor := by simpa using hkind
  intro fired h hrun
  rw [Edit.runOn_bind_ok (Edit.runOn_change _ _)] at hrun
  cases v with
  | false =>
    rw [if_neg Bool.false_ne_true] at hrun
    exact of_runOn_pure_true (.single (.drop hf hc rfl)) hrun
  | true =>
    rw [if_pos rfl, Edit.runOn_bind_eq_ok_iff] at hrun
    obtain ⟨_, mid, hnegate, hrun⟩ := hrun
    obtain ⟨ts, hts, rfl⟩ := eq_of_runOn_negateResults (hg.removeNode s) (hids.removeNode s)
      (hf.contains_removeNode_target hg)
      (fun hout => hf.notOutput (Diagram.mem_outputs_removeNode.1 hout).1) hnegate
    exact of_runOn_pure_true (.single (.negate hf hc ts hts)) hrun

omit hids in
theorem splitFanOut_foldsOrNot (s : Nat) : FoldsOrNot (splitFanOut s) g := by
  intro fired h hrun
  rw [splitFanOut, runOn_get_bind] at hrun
  cases hfan : fanOut? g s with
  | none =>
    rw [hfan] at hrun
    exact FoldsOrNot.pure_false g fired h hrun
  | some e =>
    obtain ⟨v, children⟩ := e
    obtain ⟨n, hn, hl, habove, hmany, rfl⟩ := fanOut?_eq_some_iff.1 hfan
    rw [hfan] at hrun
    dsimp only at hrun
    rw [Edit.runOn_bind_ok (Edit.runOn_change _ _), Edit.runOn_bind_eq_ok_iff] at hrun
    obtain ⟨_, mid, hfed, hrun⟩ := hrun
    have hmid := eq_of_runOn_feedAll (fun k hk => ?_) (hg.positive s n hn).2 hfed
    · rw [← Diagram.below_of_node? hn] at hmid
      subst hmid
      exact of_runOn_pure_true (.single (.split hl habove hmany)) hrun
    · rw [← Diagram.below_of_node? hn] at hk
      exact hg.contains_child_removeNode habove hk

theorem foldSource_foldsOrNot (s : Nat) : FoldsOrNot (foldSource s) g := by
  intro fired h hrun
  rw [foldSource, runOn_get_bind] at hrun
  have hidle := FoldsOrNot.pure_false g fired h
  split at hrun
  · exact hidle hrun
  · split at hrun
    · exact splitFanOut_foldsOrNot hg s fired h hrun
    · split at hrun
      · exact hidle hrun
      · rename_i v c hfeeds
        cases hc : g.label? c with
        | none => exact hidle (by rwa [hc] at hrun)
        | some label =>
          rw [hc] at hrun
          cases label with
          | copy => exact foldCopy_foldsOrNot hg s fired h hrun
          | not => exact foldNot_foldsOrNot hg s fired h hrun
          | and => exact foldAndOr_foldsOrNot hg hids s fired h hrun
          | or => exact foldAndOr_foldsOrNot hg hids s fired h hrun
          | xor => exact foldXor_foldsOrNot hg hids s fired h hrun
          | const w => exact hidle hrun
          | free name => exact hidle hrun

end Rules

theorem settleNeutral_foldsOrNot (g : Circuit) (k : Nat) : FoldsOrNot (settleNeutral k) g := by
  intro fired h hrun
  rcases settleNeutral_spec g k with ⟨-, h', hrun', hfolds⟩ | ⟨-, hrun'⟩
  · rw [hrun', Prod.mk.injEq, Except.ok.injEq] at hrun
    obtain ⟨hfired, rfl⟩ := hrun
    exact .inl ⟨hfired.symm, hfolds⟩
  · rw [hrun', Prod.mk.injEq, Except.ok.injEq] at hrun
    exact .inr ⟨hrun.1.symm, hrun.2.symm⟩

/-- **A rule that answers** has folded or has done nothing. -/
theorem fire_foldsOrNot (hg : g.Coherent) (hids : g.IdsBelow) (rule : Rule) (k : Nat) :
    FoldsOrNot (rule.fire k) g := by
  cases rule with
  | copy => exact foldCopy_foldsOrNot hg k
  | not => exact foldNot_foldsOrNot hg k
  | andOr => exact foldAndOr_foldsOrNot hg hids k
  | xor => exact foldXor_foldsOrNot hg hids k
  | neutral => exact settleNeutral_foldsOrNot g k
  | fanOut => exact splitFanOut_foldsOrNot hg k
  | source => exact foldSource_foldsOrNot hg hids k

/-- A rule at one node after the other. -/
theorem fireAll_foldsOrNot (hg : g.Coherent) (hids : g.IdsBelow) (rule : Rule) (ids : List Nat) :
    FoldsOrNot (fireAll rule ids) g := by
  induction ids generalizing g with
  | nil => exact FoldsOrNot.pure_false g
  | cons k ids ih =>
    intro fired h hrun
    rw [fireAll, Edit.runOn_bind_eq_ok_iff] at hrun
    obtain ⟨first, mid, hfirst, hrun⟩ := hrun
    rw [Edit.runOn_bind_eq_ok_iff] at hrun
    obtain ⟨more, h', hmore, hrun⟩ := hrun
    rw [Edit.runOn_pure, Prod.mk.injEq, Except.ok.injEq] at hrun
    obtain ⟨rfl, rfl⟩ := hrun
    rcases fire_foldsOrNot hg hids rule k first mid hfirst with ⟨rfl, hfolds⟩ | ⟨rfl, rfl⟩
    · obtain ⟨hmid, hmids⟩ := coherent_of_transGen hfolds hg hids
      rcases ih hmid hmids more h' hmore with ⟨rfl, hfolds'⟩ | ⟨rfl, rfl⟩
      · exact .inl ⟨rfl, hfolds.trans hfolds'⟩
      · exact .inl ⟨rfl, hfolds⟩
    · exact ih hg hids more h' hmore

end Circuit

end Wiring
