import Mathlib.Data.Option.Basic
import Mathlib.Logic.Relation
import Wiring.Circuit.Folding
import Wiring.Proofs.Circuit.Folds
import Wiring.Proofs.Diagram.EditRuns

/-!
# Runs of the rules

On a lax circuit no rule is refused. A rule that fits at a node folds there, once or twice, and a
rule that does not fit does nothing.

## Main definitions

- `Rule.Fits` — when a rule fits at a node
- `Circuit.FoldsIf` — an edit that folds under a condition and otherwise does nothing

## Main statements

- `Circuit.Lax.fire_spec` — what every rule does
-/

namespace Wiring

open scoped Unlimited

/-- Whether a constant can be folded into the gate. -/
def Gate.isFoldable : Gate → Bool
  | .copy | .not | .and | .or | .xor => true
  | .const _ | .free _ => false

namespace Circuit

/-- The source `k` has one use, which has a label of the kind asked for and is no output. -/
def FeedsKind (g : Circuit) (k : Nat) (kind : Gate → Bool) : Prop :=
  ∃ v c label, Feeds g k v c ∧ g.label? c = some label ∧ kind label = true

/-- The source `k` has several uses. -/
def FansOut (g : Circuit) (k : Nat) : Prop :=
  ∃ v, g.label? k = some (.const v) ∧ g.above k = [] ∧ 1 < (g.below k).length

/-- The node `k` is a variadic gate without arguments. -/
def IsEmpty (g : Circuit) (k : Nat) : Prop :=
  ∃ v label, g.label? k = some label ∧ label.neutral? = some v ∧ g.above k = []

end Circuit

/-- **When a rule fits** at the node `k`. -/
def Rule.Fits (g : Circuit) (k : Nat) : Rule → Prop
  | .copy => g.FeedsKind k (· == .copy)
  | .not => g.FeedsKind k (· == .not)
  | .andOr => g.FeedsKind k fun label => label == .and || label == .or
  | .xor => g.FeedsKind k (· == .xor)
  | .neutral => g.IsEmpty k
  | .fanOut => g.FansOut k
  | .source => g.FansOut k ∨ g.FeedsKind k Gate.isFoldable

namespace Circuit

variable {g : Circuit} {s c k : Nat} {v w : Bool} {label : Gate}

/-! ## Questions that the rules ask -/

theorem label?_of_node? {n : Node Gate} (h : g.node? k = some n) : g.label? k = some n.label := by
  rw [Diagram.label?, h]
  rfl

theorem value?_eq_some_iff : label.value? = some v ↔ label = .const v := by
  cases label <;> simp [Gate.value?]

theorem feeds?_eq_some_iff (hpos : g.Positive) :
    feeds? g s = some (v, c) ↔ Feeds g s v c := by
  simp only [feeds?, Option.bind_eq_bind, Option.bind_eq_some_iff, Option.guard_eq_some',
    Option.some.injEq, Prod.mk.injEq, exists_and_left, exists_const]
  constructor
  · rintro ⟨n, hn, v', hv, hin, c', hc, hout, rfl, rfl⟩
    refine ⟨?_, ?_, ?_, ?_⟩
    · rw [label?_of_node? hn, value?_eq_some_iff.1 hv]
    · exact (Diagram.above_eq_nil_iff hn).2 hin
    · rw [Diagram.below_of_node? hn]
      exact (hpos s n hn).2.single?_eq_some_iff.1 hc
    · simpa [Diagram.isOutput] using hout
  · intro h
    obtain ⟨n, hn⟩ := Diagram.contains_iff.1 (Diagram.contains_iff_label?.2 ⟨_, h.label⟩)
    have hlabel := h.label
    have habove := h.above
    have hbelow := h.below
    rw [label?_of_node? hn, Option.some.injEq] at hlabel
    rw [Diagram.above_eq_nil_iff hn] at habove
    rw [Diagram.below_of_node? hn, ← (hpos s n hn).2.single?_eq_some_iff] at hbelow
    exact ⟨n, hn, v, value?_eq_some_iff.2 hlabel, habove, c, hbelow,
      by simpa [Diagram.isOutput] using h.notOutput, rfl, rfl⟩

theorem feedsKind?_eq_some_iff (hpos : g.Positive) {kind : Gate → Bool} :
    feedsKind? g s kind = some (v, c) ↔
      Feeds g s v c ∧ ∃ label, g.label? c = some label ∧ kind label = true := by
  simp only [feedsKind?, Option.bind_eq_bind, Option.bind_eq_some_iff, Option.guard_eq_some',
    Option.some.injEq, Prod.mk.injEq, Prod.exists, exists_and_left, exists_const]
  constructor
  · rintro ⟨v', c', hf, label, hl, hk, rfl, rfl⟩
    exact ⟨(feeds?_eq_some_iff hpos).1 hf, label, hl, hk⟩
  · rintro ⟨hf, label, hl, hk⟩
    exact ⟨v, c, (feeds?_eq_some_iff hpos).2 hf, label, hl, hk, rfl, rfl⟩

theorem emptyValue?_eq_some_iff : emptyValue? g k = some v ↔
    ∃ label, g.label? k = some label ∧ label.neutral? = some v ∧ g.above k = [] := by
  simp only [emptyValue?, Option.bind_eq_bind, Option.bind_eq_some_iff, Option.guard_eq_some',
    Option.some.injEq, exists_and_left, exists_const]
  constructor
  · rintro ⟨n, hn, v', hv, hin, rfl⟩
    exact ⟨n.label, label?_of_node? hn, hv, (Diagram.above_eq_nil_iff hn).2 hin⟩
  · rintro ⟨label, hl, hv, habove⟩
    obtain ⟨n, hn⟩ := Diagram.contains_iff.1 (Diagram.contains_iff_label?.2 ⟨_, hl⟩)
    rw [label?_of_node? hn, Option.some.injEq] at hl
    rw [Diagram.above_eq_nil_iff hn] at habove
    exact ⟨n, hn, v, hl ▸ hv, habove, rfl⟩

theorem fanOut?_eq_some_iff {children : Tally} : fanOut? g s = some (v, children) ↔
    ∃ n, g.node? s = some n ∧ g.label? s = some (.const v) ∧ g.above s = [] ∧
      1 < (g.below s).length ∧ n.children = children := by
  simp only [fanOut?, Option.bind_eq_bind, Option.bind_eq_some_iff, Option.guard_eq_some',
    Option.some.injEq, Prod.mk.injEq, exists_and_left, exists_const]
  refine exists_congr fun n => and_congr_right ?_
  intro hn
  rw [label?_of_node? hn, Option.some.injEq, Diagram.above_eq_nil_iff hn,
    Diagram.length_below_of_node? hn]
  constructor
  · rintro ⟨v', hv, ⟨hin, hout⟩, rfl, rfl⟩
    exact ⟨value?_eq_some_iff.1 hv, hin, hout, rfl⟩
  · rintro ⟨hv, hin, hout, rfl⟩
    exact ⟨v, value?_eq_some_iff.2 hv, ⟨hin, hout⟩, rfl, rfl⟩

/-! ## Runs of the pieces -/

theorem runOn_feedAll {t : Tally} (h : ∀ k ∈ t.spread, g.contains k = true ∧ k ∉ g.inputs)
    (ht : t.Positive) : (feedAll v t).runOn g =
      (.ok ⟨⟩, g.feed (.const v) t.spread) := by
  have hhosts (k : Nat) (hk : k ∈ t.keys) : g.Hosts [] [k] := by
    rw [ht.mem_keys] at hk
    exact ⟨by simp, by simpa using h k hk⟩
  rw [feedAll, Edit.runOn_forM_addNode (.const v) t (fun _ => []) (fun k => [k]) hhosts]
  rfl

theorem runOn_absorb (hg : g.Coherent) (hids : g.IdsBelow) (hc : g.contains c = true)
    (hout : ∀ p ∈ g.above c, p ∉ g.outputs) :
    ∃ ps : List Nat, (∀ p, p ∈ ps ↔ p ∈ g.above c) ∧ (absorb c v).runOn g =
      (.ok (), (g.divert .copy c ps).relabel c (.const v)) := by
  obtain ⟨n, hn⟩ := Diagram.contains_iff.1 hc
  have hkeys (p : Nat) : p ∈ n.parents.keys ↔ p ∈ g.above c := by
    rw [(hg.positive c n hn).1.mem_keys, Diagram.above_of_node? hn]
  have hdivert := Edit.runOn_forM_sever_addNode (g := g) .copy n.parents (·, c) (fun p => [p])
    (fun _ => [])
    (fun p hp => by
      rw [hkeys] at hp
      exact ⟨by simpa using ⟨hg.contains_of_mem_above hp, hout p hp⟩, by simp⟩)
    (fun p hp => ⟨hids p (hg.contains_of_mem_above ((hkeys p).1 hp)), hids c hc⟩)
  refine ⟨n.parents.keys, hkeys, ?_⟩
  rw [absorb, Edit.runOn_ask_bind, Diagram.find_eq_ok_iff.2 hn, Diagram.divert,
    Diagram.above_of_node? hn]
  simp only [divertAll]
  rw [Edit.runOn_bind_ok hdivert, Edit.runOn_setLabel]
  rw [Diagram.contains_attachAll, Diagram.contains_severAll, hc]
  rfl

theorem runOn_negateResults (hg : g.Coherent) (hids : g.IdsBelow) (hc : g.contains c = true)
    (hcout : c ∉ g.outputs) (hin : ∀ t ∈ g.below c, t ∉ g.inputs) :
    ∃ ts : List Nat, (∀ t, t ∈ ts ↔ t ∈ g.below c) ∧ (negateResults c).runOn g =
      (.ok ⟨⟩, g.interpose .not c ts) := by
  obtain ⟨n, hn⟩ := Diagram.contains_iff.1 hc
  have hkeys (t : Nat) : t ∈ n.children.keys ↔ t ∈ g.below c := by
    rw [(hg.positive c n hn).2.mem_keys, Diagram.below_of_node? hn]
  have hnegate := Edit.runOn_forM_sever_addNode (g := g) .not n.children (c, ·) (fun _ => [c])
    (fun t => [t])
    (fun t ht => by
      rw [hkeys] at ht
      exact ⟨by simpa using ⟨hc, hcout⟩, by simpa using ⟨hg.contains_of_mem_below ht, hin t ht⟩⟩)
    (fun t ht => ⟨hids c hc, hids t (hg.contains_of_mem_below ((hkeys t).1 ht))⟩)
  refine ⟨n.children.keys, hkeys, ?_⟩
  rw [negateResults, Edit.runOn_ask_bind, Diagram.find_eq_ok_iff.2 hn, Diagram.interpose,
    Diagram.below_of_node? hn]
  exact hnegate

/-! ## The rules -/

/-- The edit folds if `fits` holds, and otherwise does nothing. -/
def FoldsIf (fits : Prop) (e : Edit Gate Bool) (g : Circuit) : Prop :=
  (fits ∧ ∃ h, e.runOn g = (.ok true, h) ∧ Relation.TransGen Folds g h) ∨
    (¬fits ∧ e.runOn g = (.ok false, g))

theorem runOn_get_bind {β : Type} (f : Circuit → Edit Gate β) :
    (get >>= f).runOn g = (f g).runOn g :=
  Edit.runOn_bind_ok (Edit.runOn_get g) f

theorem feedsKind?_eq_none (hpos : g.Positive) {kind : Gate → Bool}
    (h : ¬FeedsKind g s kind) : feedsKind? g s kind = none := by
  rw [Option.eq_none_iff_forall_not_mem]
  rintro ⟨v, c⟩ hvc
  obtain ⟨hf, label, hc, hkind⟩ := (feedsKind?_eq_some_iff hpos).1 hvc
  exact h ⟨v, c, label, hf, hc, hkind⟩

/-- A rule about sources that feed a certain kind of gate. -/
theorem foldsIf_feedsKind (hpos : g.Positive) (s : Nat) (kind : Gate → Bool)
    (body : Circuit → Bool → Nat → Edit Gate Bool)
    (h : ∀ v c label, Feeds g s v c → g.label? c = some label → kind label = true →
      ∃ h, (body g v c).runOn g = (.ok true, h) ∧ Relation.TransGen Folds g h) :
    FoldsIf (FeedsKind g s kind)
      (get >>= fun g => match feedsKind? g s kind with
        | none => pure false
        | some (v, c) => body g v c) g := by
  by_cases hfits : FeedsKind g s kind
  · obtain ⟨v, c, label, hf, hc, hkind⟩ := hfits
    refine .inl ⟨⟨v, c, label, hf, hc, hkind⟩, ?_⟩
    rw [runOn_get_bind, (feedsKind?_eq_some_iff hpos).2 ⟨hf, label, hc, hkind⟩]
    exact h v c label hf hc hkind
  · refine .inr ⟨hfits, ?_⟩
    rw [runOn_get_bind, feedsKind?_eq_none hpos hfits]
    rfl

/-- A node with several uses that a source has settled is a source itself, and splits. -/
theorem Feeds.folds_split (hf : Feeds g s v c) (h : g.Coherent)
    (hone : (g.above c).length = 1) (hmany : 1 < (g.below c).length) :
    Folds ((g.relabel c (.const v)).removeNode s)
      (((g.removeNode s).removeNode c).feed (.const v) (g.below c)) := by
  have hlabel : ((g.removeNode s).relabel c (.const v)).label? c = some (.const v) :=
    Diagram.label?_relabel_self (hf.contains_removeNode_target h)
  have habove : ((g.removeNode s).relabel c (.const v)).above c = [] := by
    rw [Diagram.above_relabel, hf.above_target_removeNode h, hf.above_eq_of_length h hone]
    simp
  have hbelow : ((g.removeNode s).relabel c (.const v)).below c = g.below c := by
    rw [Diagram.below_relabel, hf.below_removeNode h (hf.ne h).symm]
  have hsplit := Folds.split hlabel habove (hbelow ▸ hmany)
  rwa [hbelow, (h.removeNode s).removeNode_relabel_self, ← h.relabel_removeNode] at hsplit

theorem Lax.foldCopy_spec (h : g.Lax) (s : Nat) :
    FoldsIf (Rule.Fits g s .copy) (foldCopy s) g := by
  apply foldsIf_feedsKind h.coherent.positive s _ _
  intro v c label hf hc hkind
  obtain rfl : label = .copy := by simpa using hkind
  obtain ⟨n, hn⟩ := Diagram.contains_iff.1 (hf.contains_target h.coherent)
  have hin : n.indegree = 1 := by
    rw [← Diagram.length_above_of_node? hn, hf.above_eq h hc (.inl rfl)]
    rfl
  -- a copy with one use at most takes the value, and another one goes together with the source
  have hfirst := Folds.resolve hf hc (.inl rfl)
  rw [Edit.runOn_ask_bind, Diagram.find_eq_ok_iff.2 hn]
  dsimp only
  rw [if_neg (not_not.2 hin)]
  by_cases hout : n.outdegree ≤ 1
  · rw [if_pos hout, Edit.runOn_bind_ok (Edit.runOn_setLabel (hf.contains_target h.coherent)),
      Edit.runOn_bind_ok (Edit.runOn_change _ _)]
    exact ⟨_, rfl, .single hfirst⟩
  · -- the relabelled copy is a source with several uses, and splits at once
    have hmany : 1 < (g.below c).length := by
      rw [Diagram.length_below_of_node? hn]
      exact Nat.lt_of_not_le hout
    have hsources (i : Nat) (hi : i ∈ (g.removeNode s).inputs) : (g.removeNode s).above i = [] := by
      have hi' := (Diagram.mem_inputs_removeNode.1 hi).1
      rw [List.eq_nil_iff_forall_not_mem]
      intro p hp
      have := Diagram.mem_above_of_removeNode h.coherent hp
      rw [(h.input i hi').2.1] at this
      cases this
    have hfed := runOn_feedAll (g := (g.removeNode s).removeNode c) (v := v) (t := n.children)
      (fun k hk => by
        rw [← Diagram.below_of_node? hn,
          ← hf.below_removeNode h.coherent (hf.ne h.coherent).symm] at hk
        exact Diagram.child_removeNode (h.coherent.removeNode s)
          (h.acyclic.removeNode h.coherent s) hsources hk)
      (h.coherent.positive c n hn).2
    have hboth : g.removeNodes [s, c] = (g.removeNode s).removeNode c := rfl
    rw [if_neg hout, Edit.runOn_bind_ok (Edit.runOn_change _ _), hboth, Edit.runOn_bind_ok hfed,
      ← Diagram.below_of_node? hn]
    have hone := (Diagram.length_above_of_node? hn).trans hin
    exact ⟨_, rfl, .tail (.single hfirst) (hf.folds_split h.coherent hone hmany)⟩

theorem Lax.foldNot_spec (h : g.Lax) (s : Nat) :
    FoldsIf (Rule.Fits g s .not) (foldNot s) g := by
  apply foldsIf_feedsKind h.coherent.positive s _ _
  intro v c label hf hc hkind
  obtain rfl : label = .not := by simpa using hkind
  obtain ⟨n, hn⟩ := Diagram.contains_iff.1 (hf.contains_target h.coherent)
  have hin : n.indegree = 1 := by
    rw [← Diagram.length_above_of_node? hn, hf.above_eq h hc (.inr rfl)]
    rfl
  rw [Edit.runOn_ask_bind, Diagram.find_eq_ok_iff.2 hn]
  dsimp only
  rw [if_neg (not_not.2 hin),
    Edit.runOn_bind_ok (Edit.runOn_setLabel (hf.contains_target h.coherent)),
    Edit.runOn_bind_ok (Edit.runOn_change _ _)]
  exact ⟨_, rfl, .single (.resolve hf hc (.inr rfl))⟩

theorem Lax.foldAndOr_spec (h : g.Lax) (s : Nat) :
    FoldsIf (Rule.Fits g s .andOr) (foldAndOr s) g := by
  refine foldsIf_feedsKind h.coherent.positive s _
    (fun g v c => do
      Edit.change (·.removeNodes [s])
      if (g.label? c).bind Gate.absorbing? = some v then absorb c v else pure ()
      pure true) ?_
  intro v c label hf hc hkind
  dsimp only
  rw [Edit.runOn_bind_ok (Edit.runOn_change _ _), hc, Option.bind_some]
  have hvariadic : label = .and ∨ label = .or := by simpa using hkind
  by_cases hv : label.absorbing? = some v
  · obtain ⟨ps, hps, hrun⟩ := runOn_absorb (v := v) (h.coherent.removeNode s)
      (h.idsBelow.removeNode s) (hf.contains_removeNode_target h.coherent) fun p hp => by
        rw [Diagram.outputs_removeNode (hf.source_not_output h)]
        refine h.not_mem_outputs (List.ne_nil_of_mem (a := c) ?_)
        rw [h.coherent.above_removeNode, if_neg (hf.ne h.coherent).symm, List.mem_filter] at hp
        exact h.coherent.mem_above_iff.1 hp.1
    rw [if_pos hv]
    exact ⟨_, Edit.runOn_bind_ok hrun _, .single (.absorb hf hc hv ps hps)⟩
  · have hneutral : label.neutral? = some v := by
      rcases hvariadic with rfl | rfl <;> cases v <;> first | rfl | exact absurd rfl hv
    rw [if_neg hv]
    exact ⟨_, rfl, .single (.drop hf hc hneutral)⟩

theorem Lax.foldXor_spec (h : g.Lax) (s : Nat) :
    FoldsIf (Rule.Fits g s .xor) (foldXor s) g := by
  apply foldsIf_feedsKind h.coherent.positive s _ _
  intro v c label hf hc hkind
  obtain rfl : label = .xor := by simpa using hkind
  rw [Edit.runOn_bind_ok (Edit.runOn_change _ _)]
  cases v with
  | false => exact ⟨_, rfl, .single (.drop hf hc rfl)⟩
  | true =>
    have hcs : c ≠ s := (hf.ne h.coherent).symm
    obtain ⟨ts, hts, hrun⟩ := runOn_negateResults (h.coherent.removeNode s)
      (h.idsBelow.removeNode s) (hf.contains_removeNode_target h.coherent)
      (by
        rw [Diagram.outputs_removeNode (hf.source_not_output h)]
        exact hf.notOutput)
      (fun t ht hmem => by
        rw [h.coherent.below_removeNode_source hf.above hcs, ← h.coherent.mem_above_iff] at ht
        exact h.not_mem_inputs (List.ne_nil_of_mem ht) (Diagram.mem_inputs_removeNode.1 hmem).1)
    rw [if_pos rfl]
    exact ⟨_, Edit.runOn_bind_ok hrun _, .single (.negate hf hc ts hts)⟩

theorem settleNeutral_spec (g : Circuit) (k : Nat) :
    FoldsIf (Rule.Fits g k .neutral) (settleNeutral k) g := by
  by_cases hfits : IsEmpty g k
  · obtain ⟨v, label, hl, hv, habove⟩ := hfits
    refine .inl ⟨⟨v, label, hl, hv, habove⟩, ?_⟩
    rw [settleNeutral, runOn_get_bind, emptyValue?_eq_some_iff.2 ⟨label, hl, hv, habove⟩]
    dsimp only
    rw [Edit.runOn_bind_ok (Edit.runOn_setLabel (Diagram.contains_iff_label?.2 ⟨_, hl⟩))]
    exact ⟨_, rfl, .single (.settle hl hv habove)⟩
  · have hnone : emptyValue? g k = none := by
      rw [Option.eq_none_iff_forall_not_mem]
      intro v hv
      obtain ⟨label, hl, hv, habove⟩ := emptyValue?_eq_some_iff.1 hv
      exact hfits ⟨v, label, hl, hv, habove⟩
    refine .inr ⟨hfits, ?_⟩
    rw [settleNeutral, runOn_get_bind, hnone]
    rfl

theorem fanOut?_isSome_iff : (fanOut? g s).isSome = true ↔ FansOut g s := by
  rw [Option.isSome_iff_exists]
  constructor
  · rintro ⟨⟨v, children⟩, h⟩
    obtain ⟨n, -, hl, habove, hmany, -⟩ := fanOut?_eq_some_iff.1 h
    exact ⟨v, hl, habove, hmany⟩
  · rintro ⟨v, hl, habove, hmany⟩
    obtain ⟨n, hn⟩ := Diagram.contains_iff.1 (Diagram.contains_iff_label?.2 ⟨_, hl⟩)
    exact ⟨(v, n.children), fanOut?_eq_some_iff.2 ⟨n, hn, hl, habove, hmany, rfl⟩⟩

theorem Lax.splitFanOut_spec (h : g.Lax) (s : Nat) :
    FoldsIf (Rule.Fits g s .fanOut) (splitFanOut s) g := by
  cases hfan : fanOut? g s with
  | none =>
    refine .inr ⟨?_, ?_⟩
    · intro hfits
      have := fanOut?_isSome_iff.2 hfits
      rw [hfan] at this
      cases this
    · rw [splitFanOut, runOn_get_bind, hfan]
      rfl
  | some e =>
    obtain ⟨v, children⟩ := e
    obtain ⟨n, hn, hl, habove, hmany, rfl⟩ := fanOut?_eq_some_iff.1 hfan
    refine .inl ⟨⟨v, hl, habove, hmany⟩, ?_⟩
    rw [splitFanOut, runOn_get_bind, hfan]
    dsimp only
    have hone : g.removeNodes [s] = g.removeNode s := rfl
    rw [Edit.runOn_bind_ok (Edit.runOn_change _ _), hone]
    have hfed := runOn_feedAll (g := g.removeNode s) (v := v) (t := n.children)
      (fun k hk => by
        rw [← Diagram.below_of_node? hn] at hk
        exact h.child_removeNode hk)
      (h.coherent.positive s n hn).2
    rw [Edit.runOn_bind_ok hfed, ← Diagram.below_of_node? hn]
    exact ⟨_, rfl, .single (.split hl habove hmany)⟩

theorem isSource_iff : g.isSource s = true ↔
    ∃ v, g.label? s = some (.const v) ∧ g.above s = [] := by
  rw [isSource, Diagram.label?, Diagram.above]
  cases g.node? s with
  | none => simp
  | some n =>
    simp only [Option.any_some, isSourceNode, Bool.and_eq_true, beq_iff_eq, Node.indegree,
      ← Tally.length_spread, List.length_eq_zero_iff, Option.isSome_iff_exists,
      value?_eq_some_iff, Option.map_some, Option.some.injEq, Option.elim_some]
    constructor
    · rintro ⟨habove, v, hv⟩
      exact ⟨v, hv, habove⟩
    · rintro ⟨v, hv, habove⟩
      exact ⟨habove, v, hv⟩

/-- A rule that fits folds. -/
theorem FoldsIf.of_fits {fits fits' : Prop} {e : Edit Gate Bool} (h : FoldsIf fits e g)
    (hfits : fits) (hfits' : fits') : FoldsIf fits' e g :=
  .inl ⟨hfits', (h.resolve_right fun hnot => hnot.1 hfits).2⟩

/-- A source that feeds a single gate is folded into it, if the gate takes part in folding. -/
theorem Feeds.foldSource_spec (hf : Feeds g s v c) (h : g.Lax) (hfan : ¬FansOut g s) :
    FoldsIf (Rule.Fits g s .source) (foldSource s) g := by
  have hsource : isSource g s = true := isSource_iff.2 ⟨v, hf.label, hf.above⟩
  have hnofan : ¬(fanOut? g s).isSome = true := fun hsome => hfan (fanOut?_isSome_iff.1 hsome)
  obtain ⟨label, hc⟩ := Diagram.contains_iff_label?.1 (hf.contains_target h.coherent)
  have hkind (kind : Gate → Bool) (hk : kind label = true) : FeedsKind g s kind :=
    ⟨v, c, label, hf, hc, hk⟩
  -- the gate that the source feeds is the only one that could take part
  have hidle (hl : label.isFoldable = false) : ¬Rule.Fits g s .source := by
    rintro (hfits | ⟨v', c', label', hf', hc', hl'⟩)
    · exact hfan hfits
    · have hbelow := hf'.below
      rw [hf.below, List.cons.injEq] at hbelow
      rw [← hbelow.1, hc, Option.some.injEq] at hc'
      rw [← hc', hl] at hl'
      cases hl'
  rw [FoldsIf, foldSource, runOn_get_bind, hsource, if_neg (by simp), if_neg hnofan,
    (feeds?_eq_some_iff h.coherent.positive).2 hf]
  dsimp only
  rw [hc]
  cases label with
  | copy => exact (h.foldCopy_spec s).of_fits (hkind _ rfl) (.inr (hkind _ rfl))
  | not => exact (h.foldNot_spec s).of_fits (hkind _ rfl) (.inr (hkind _ rfl))
  | and => exact (h.foldAndOr_spec s).of_fits (hkind _ rfl) (.inr (hkind _ rfl))
  | or => exact (h.foldAndOr_spec s).of_fits (hkind _ rfl) (.inr (hkind _ rfl))
  | xor => exact (h.foldXor_spec s).of_fits (hkind _ rfl) (.inr (hkind _ rfl))
  | const w => exact .inr ⟨hidle rfl, rfl⟩
  | free name => exact .inr ⟨hidle rfl, rfl⟩

theorem Lax.foldSource_spec (h : g.Lax) (s : Nat) :
    FoldsIf (Rule.Fits g s .source) (foldSource s) g := by
  have hpos := h.coherent.positive
  by_cases hsource : isSource g s = true
  · by_cases hfan : FansOut g s
    · have hrun : (foldSource s).runOn g = (splitFanOut s).runOn g := by
        rw [foldSource, runOn_get_bind, hsource, if_neg (by simp),
          if_pos (fanOut?_isSome_iff.2 hfan)]
      rw [FoldsIf, hrun]
      exact (h.splitFanOut_spec s).of_fits hfan (.inl hfan)
    · cases hfeeds : feeds? g s with
      | none =>
        refine .inr ⟨?_, ?_⟩
        · rintro (hfits | ⟨v, c, label, hf, -, -⟩)
          · exact hfan hfits
          · have := (feeds?_eq_some_iff hpos).2 hf
            rw [hfeeds] at this
            cases this
        · have hnofan : ¬(fanOut? g s).isSome = true := fun hsome =>
            hfan (fanOut?_isSome_iff.1 hsome)
          rw [foldSource, runOn_get_bind, hsource, if_neg (by simp), if_neg hnofan, hfeeds]
          rfl
      | some e => exact ((feeds?_eq_some_iff hpos).1 hfeeds).foldSource_spec h hfan
  · refine .inr ⟨?_, ?_⟩
    · rintro (⟨v, hl, habove, -⟩ | ⟨v, c, label, hf, -, -⟩)
      · exact hsource (isSource_iff.2 ⟨v, hl, habove⟩)
      · exact hsource (isSource_iff.2 ⟨v, hf.label, hf.above⟩)
    · rw [foldSource, runOn_get_bind, if_pos (by simpa using hsource)]
      rfl

/-- **A rule is never refused**: if it fits then it folds, and otherwise it does nothing. -/
theorem Lax.fire_spec (h : g.Lax) (rule : Rule) (k : Nat) :
    FoldsIf (rule.Fits g k) (rule.fire k) g := by
  cases rule with
  | copy => exact h.foldCopy_spec k
  | not => exact h.foldNot_spec k
  | andOr => exact h.foldAndOr_spec k
  | xor => exact h.foldXor_spec k
  | neutral => exact settleNeutral_spec g k
  | fanOut => exact h.splitFanOut_spec k
  | source => exact h.foldSource_spec k

end Circuit

end Wiring
