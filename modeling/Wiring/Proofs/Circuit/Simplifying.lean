import Wiring.Proofs.Circuit.Bulk
import Wiring.Proofs.Circuit.Pruning
import Wiring.Proofs.Circuit.RuleRuns
import Wiring.Proofs.Diagram.Raising

/-!
# Folding makes circuits simpler

A rule that fits makes a circuit simpler, whatever the circuit is like and however large words are.
A source that goes has more bulk than the constants that it leaves; an exclusive disjunction that
loses an argument may get negations on its results, but those have none; and a gate that is settled
is a variadic gate less. So do passes that report a change, where nodes are stored under the ids
that they go by.

## Main definitions

- `Circuit.Simplifies` — an edit that makes circuits simpler if it reports a change
- `Circuit.StaysStored` — nodes stay under their own ids

## Main statements

- `Circuit.simplifies_fire` — the rules
- `Circuit.simpler_of_pass` — passes
-/

namespace Wiring

namespace Circuit

variable {g h : Circuit} {s c k : Nat} {v : Bool} {label : Gate} {ps cs : List Nat}

/-! ## Rules -/

/-- The circuit `h` is simpler than `g` if something has changed, and otherwise it is `g`. -/
def Improves : Bool → Circuit → Circuit → Prop
  | true, h, g => Simpler h g
  | false, h, g => h = g

theorem Improves.trans {f : Circuit} {changed more : Bool} (hfirst : Improves changed g f)
    (hsecond : Improves more h g) : Improves (changed || more) h f := by
  cases changed <;> cases more
  · exact Eq.trans hsecond hfirst
  · exact hfirst ▸ hsecond
  · exact hsecond ▸ hfirst
  · exact Simpler.trans hsecond hfirst

/-- What a rule may answer and leave, if it is not refused. -/
def Simplified (g : Circuit) : Except Fault Bool × Circuit → Prop
  | (.ok changed, h) => Improves changed h g
  | (.error _, _) => True

/-- **The edit makes circuits simpler** if it reports a change. -/
def Simplifies (e : Edit Gate Bool) : Prop := ∀ g, Simplified g (e.runOn g)

theorem simplified_bind_true {β : Type} {e : Edit Gate β} {mid : Circuit}
    (he : ∀ b h, e.runOn mid = (.ok b, h) → Simpler h g) :
    Simplified g ((e >>= fun _ => pure true).runOn mid) := by
  rw [Edit.runOn_bind]
  cases hrun : e.runOn mid with
  | mk answer h =>
    cases answer with
    | ok b => exact he b h hrun
    | error fault => trivial

theorem simplified_find_bind {f : Node Gate → Edit Gate Bool}
    (hf : ∀ n, g.node? c = some n → Simplified g ((f n).runOn g)) :
    Simplified g ((Edit.ask (·.find c) >>= f).runOn g) := by
  rw [Edit.runOn_ask_bind]
  cases hn : g.find c with
  | ok n => exact hf n (Diagram.find_eq_ok_iff.1 hn)
  | error fault => trivial

/-- A rule about sources that feed a certain kind of gate, constants excepted. -/
theorem simplifies_feedsKind [Words] (s : Nat) {kind : Gate → Bool}
    (hkind : ∀ v, kind (.const v) = false) (body : Circuit → Bool → Nat → Edit Gate Bool)
    (h : ∀ g v c label, s ≠ c → g.label? s = some (.const v) → g.label? c = some label →
      kind label = true → Simplified g ((body g v c).runOn g)) :
    Simplifies (get >>= fun g => match feedsKind? g s kind with
      | none => pure false
      | some (v, c) => body g v c) := by
  intro g
  rw [runOn_get_bind]
  cases hfeeds : feedsKind? g s kind with
  | none => rfl
  | some e =>
    simp only [feedsKind?, feeds?, Option.bind_eq_bind, Option.bind_eq_some_iff,
      Option.guard_eq_some', Option.some.injEq, exists_and_left, exists_const] at hfeeds
    obtain ⟨⟨v, c⟩, ⟨n, hn, v', hv, -, c', -, -, hpair⟩, label, hc, hlabel, rfl⟩ := hfeeds
    obtain ⟨rfl, rfl⟩ := Prod.mk.inj hpair
    have hs : g.label? s = some (.const v') := by rw [label?_of_node? hn, value?_eq_some_iff.1 hv]
    refine h g v' c' label (fun hsc => ?_) hs hc hlabel
    rw [← hsc, hs, Option.some.injEq] at hc
    rw [← hc, hkind] at hlabel
    cases hlabel

theorem simplifies_foldCopy [Words] (s : Nat) : Simplifies (foldCopy s) := by
  apply simplifies_feedsKind s (fun _ => rfl)
  intro g v c label hsc hs hc hcopy
  obtain rfl := beq_iff_eq.1 hcopy
  refine simplified_find_bind fun n hn => ?_
  split
  · rfl
  · split
    · -- the copy becomes the constant
      rw [Edit.runOn_bind_ok (Edit.runOn_setLabel (Diagram.contains_iff.2 ⟨n, hn⟩))]
      show Simpler ((g.relabel c (.const v)).removeNodes [s]) g
      have hs' : Diagram.label? (g.relabel c (.const v)) s = some (.const v) := by
        rw [Diagram.label?_relabel, if_neg hsc, hs]
      have hlabel := bulk_relabel hc (.const v)
      have hgone := (bulk_removeNodes_source hs').2
      refine .of_bulk_lt ?_ (by simp only [Gate.bulk] at hlabel; omega)
      exact (gateCount_removeNodes_le _ _).trans
        (Nat.le_of_add_right_le (gateCount_relabel_le g c _ rfl))
    · -- the copy goes, and constants come for its edges
      rename_i hmany
      rw [Edit.runOn_bind_ok (Edit.runOn_change _ _)]
      refine simplified_bind_true fun b h hrun => ?_
      obtain ⟨hcount, hbulk⟩ := adds_feedAll v n.children (g.removeNodes [s, c])
      rw [hrun] at hcount hbulk
      have hgone := bulk_removeNodes g [s, c]
      rw [List.toFinset_cons, List.toFinset_cons, List.toFinset_nil, insert_empty_eq,
        Finset.sum_pair hsc, Diagram.amount_of_label? hc, Diagram.below_of_node? hn,
        Gate.bulk] at hgone
      have hone := one_le_amount_bulk hs
      have hlen := n.children.total_le
      rw [← Node.outdegree] at hlen
      dsimp only at hbulk
      exact .of_bulk_lt (hcount.trans (gateCount_removeNodes_le g _)) (by omega)

theorem simplifies_foldNot [Words] (s : Nat) : Simplifies (foldNot s) := by
  apply simplifies_feedsKind s (fun _ => rfl)
  intro g v c label hsc hs hc hnot
  obtain rfl := beq_iff_eq.1 hnot
  refine simplified_find_bind fun n hn => ?_
  split
  · rfl
  · rw [Edit.runOn_bind_ok (Edit.runOn_setLabel (Diagram.contains_iff.2 ⟨n, hn⟩))]
    show Simpler ((g.relabel c (.const !v)).removeNodes [s]) g
    have hs' : Diagram.label? (g.relabel c (.const !v)) s = some (.const v) := by
      rw [Diagram.label?_relabel, if_neg hsc, hs]
    have hlabel := bulk_relabel hc (.const !v)
    have hgone := (bulk_removeNodes_source hs').2
    -- the bulk of the source pays for the constant, and a node has gone
    refine .of_size_lt ?_ (by simp only [Gate.bulk] at hlabel; omega) ?_
    · exact (gateCount_removeNodes_le _ _).trans
        (Nat.le_of_add_right_le (gateCount_relabel_le g c _ rfl))
    · have hsize : (g.relabel c (.const !v)).size = g.size := IdMap.size_modify
      exact hsize ▸ Diagram.size_removeNodes_lt (List.mem_singleton_self s)
        (Diagram.contains_iff_label?.2 ⟨_, hs'⟩)

/-- Absorbing leaves a variadic gate less. -/
theorem gateCount_of_absorb [Words] {b : Unit} (hc : g.VariadicAt c)
    (hrun : (absorb c v).runOn g = (.ok b, h)) : h.gateCount < g.gateCount := by
  rw [absorb, Edit.runOn_bind_eq_ok_iff] at hrun
  obtain ⟨gate, g', hask, hrun⟩ := hrun
  rw [Edit.runOn_ask, Prod.mk.injEq] at hask
  obtain ⟨-, rfl⟩ := hask
  rw [Edit.runOn_bind_eq_ok_iff] at hrun
  obtain ⟨_, mid, hdivert, hset⟩ := hrun
  rw [Edit.setLabel, Edit.runOn_bind_eq_ok_iff] at hset
  obtain ⟨_, mid', hfind, hset⟩ := hset
  rw [Edit.runOn_ask, Prod.mk.injEq] at hfind
  obtain ⟨-, rfl⟩ := hfind
  obtain rfl : Diagram.relabel mid c (.const v) = h := congrArg Prod.snd hset
  have hspares := moves_divertAll c gate.parents g
  rw [hdivert] at hspares
  have hlabel := gateCount_relabel_le mid c (.const v) rfl
  rcases hspares with hlt | ⟨hle, hkept⟩
  · exact (Nat.le_of_add_right_le hlabel).trans_lt hlt
  · rw [(hkept hc).1.amount_gateCount] at hlabel
    exact Nat.lt_of_lt_of_le hlabel hle

theorem simplifies_foldAndOr [Words] (s : Nat) : Simplifies (foldAndOr s) := by
  apply simplifies_feedsKind s (fun _ => rfl)
  intro g v c label hsc hs hc hkind
  rw [Edit.runOn_bind_ok (Edit.runOn_change _ _)]
  have hgates := gateCount_removeNodes_le g [s]
  have hbulk := (bulk_removeNodes_source hs).2
  split
  · refine simplified_bind_true fun b h hrun => ?_
    have hvariadic : VariadicAt (g.removeNodes [s]) c := by
      refine ⟨label, ?_, ?_⟩
      · rw [show g.removeNodes [s] = g.removeNode s from rfl, Diagram.label?_removeNode,
          if_neg (Ne.symm hsc), hc]
      · cases label <;> first | rfl | cases hkind
    exact .inl ((gateCount_of_absorb hvariadic hrun).trans_le hgates)
  · exact .of_bulk_lt hgates hbulk

theorem simplifies_foldXor [Words] (s : Nat) : Simplifies (foldXor s) := by
  apply simplifies_feedsKind s (fun _ => rfl)
  intro g v c label hsc hs hc hxor
  obtain rfl := beq_iff_eq.1 hxor
  rw [Edit.runOn_bind_ok (Edit.runOn_change _ _)]
  have hgates := gateCount_removeNodes_le g [s]
  have hbulk := (bulk_removeNodes_source hs).2
  split
  · refine simplified_bind_true fun b h hrun => ?_
    have hvariadic : VariadicAt (g.removeNodes [s]) c :=
      ⟨.xor, by rw [show g.removeNodes [s] = g.removeNode s from rfl, Diagram.label?_removeNode,
        if_neg (Ne.symm hsc), hc], rfl⟩
    rw [negateResults, Edit.runOn_bind_eq_ok_iff] at hrun
    obtain ⟨gate, mid, hask, hrun⟩ := hrun
    rw [Edit.runOn_ask, Prod.mk.injEq] at hask
    obtain ⟨-, rfl⟩ := hask
    have hspares := moves_negateAll c gate.children (g.removeNodes [s])
    rw [hrun] at hspares
    rcases hspares with hlt | ⟨hle, hkept⟩
    · exact .inl (hlt.trans_le hgates)
    · exact .of_bulk_lt (hle.trans hgates) ((hkept hvariadic).2.trans_lt hbulk)
  · exact .of_bulk_lt hgates hbulk

theorem simplifies_settleNeutral [Words] (k : Nat) : Simplifies (settleNeutral k) := by
  intro g
  rw [settleNeutral, runOn_get_bind]
  cases hempty : emptyValue? g k with
  | none => rfl
  | some v =>
    simp only [emptyValue?, Option.bind_eq_bind, Option.bind_eq_some_iff, Option.guard_eq_some',
      Option.some.injEq, exists_and_left, exists_const] at hempty
    obtain ⟨n, hn, v', hv, -, rfl⟩ := hempty
    have hlabel := gateCount_relabel_le g k (.const v') rfl
    have hvariadic : VariadicAt g k :=
      ⟨n.label, label?_of_node? hn, Gate.isVariadic_of_neutral? hv⟩
    rw [hvariadic.amount_gateCount] at hlabel
    dsimp only
    rw [Edit.runOn_bind_ok (Edit.runOn_setLabel (Diagram.contains_iff.2 ⟨n, hn⟩))]
    exact .inl hlabel

theorem simplifies_splitFanOut [Words] (s : Nat) : Simplifies (splitFanOut s) := by
  intro g
  rw [splitFanOut, runOn_get_bind]
  cases hfan : fanOut? g s with
  | none => rfl
  | some e =>
    obtain ⟨v, children⟩ := e
    simp only [fanOut?, Option.bind_eq_bind, Option.bind_eq_some_iff, Option.guard_eq_some',
      Option.some.injEq, Prod.mk.injEq, exists_and_left, exists_const] at hfan
    obtain ⟨n, hn, v', hv, ⟨-, hmany⟩, rfl, rfl⟩ := hfan
    have hs : g.label? s = some (.const v') := by rw [label?_of_node? hn, value?_eq_some_iff.1 hv]
    dsimp only
    rw [Edit.runOn_bind_ok (Edit.runOn_change _ _)]
    refine simplified_bind_true fun b h hrun => ?_
    obtain ⟨hcount, hbulk⟩ := adds_feedAll v' n.children (g.removeNodes [s])
    rw [hrun] at hcount hbulk
    have hgone := (bulk_removeNodes_source hs).1
    rw [Diagram.amount_of_label? hs, Diagram.below_of_node? hn, Gate.bulk] at hgone
    have hlen := n.children.total_le
    rw [← Node.outdegree] at hlen
    exact .of_bulk_lt (hcount.trans (gateCount_removeNodes_le g _)) (by dsimp only at hbulk; omega)

theorem simplifies_foldSource [Words] (s : Nat) : Simplifies (foldSource s) := by
  intro g
  rw [foldSource, runOn_get_bind]
  split
  · rfl
  · split
    · exact simplifies_splitFanOut s g
    · split
      · rfl
      · split
        · exact simplifies_foldCopy s g
        · exact simplifies_foldNot s g
        · exact simplifies_foldAndOr s g
        · exact simplifies_foldAndOr s g
        · exact simplifies_foldXor s g
        all_goals rfl

/-- **Every rule makes circuits simpler** if it fits. -/
theorem simplifies_fire [Words] (rule : Rule) (k : Nat) : Simplifies (rule.fire k) := by
  cases rule with
  | copy => exact simplifies_foldCopy k
  | not => exact simplifies_foldNot k
  | andOr => exact simplifies_foldAndOr k
  | xor => exact simplifies_foldXor k
  | neutral => exact simplifies_settleNeutral k
  | fanOut => exact simplifies_splitFanOut k
  | source => exact simplifies_foldSource k

/-! ## Nodes under their own ids -/

/-- Nodes stay under their own ids. -/
def StaysStored (g h : Circuit) : Prop := g.Stored → h.Stored

instance : Std.Refl StaysStored := ⟨fun _ hg => hg⟩

instance : IsTrans Circuit StaysStored := ⟨fun _ _ _ hfirst hsecond hg => hsecond (hfirst hg)⟩

section StaysStored

open Edit

variable [Words]

theorem staysStored_addNode (label : Gate) (ps cs : List Nat) :
    Moves StaysStored (Edit.addNode label ps cs) :=
  moves_addNode fun _ hg => hg.attach label ps cs

omit [Words] in
theorem staysStored_removeNodes (ids : List Nat) :
    Moves StaysStored (Edit.change (Diagram.removeNodes · ids)) :=
  moves_change fun _ hg => hg.removeNodes ids

omit [Words] in
theorem staysStored_setLabel (k : Nat) (label : Gate) :
    Moves StaysStored (Edit.setLabel k label) :=
  (moves_ask _).bind fun _ => moves_change fun _ hg => hg.relabel k label

omit [Words] in
theorem staysStored_sever (a b : Nat) : Moves StaysStored (Edit.change (Diagram.sever · a b)) :=
  moves_change fun _ hg => hg.sever a b

theorem staysStored_feedAll (v : Bool) (t : Tally) : Moves StaysStored (feedAll v t) := by
  refine Moves.forM (fun e => ?_) t.entries
  exact (staysStored_addNode (.const v) [] [e.1]).discard.repeated e.2

theorem staysStored_absorb (c : Nat) (v : Bool) : Moves StaysStored (absorb c v) := by
  refine (moves_ask _).bind fun gate => ?_
  have hdivert : Moves StaysStored (divertAll c gate.parents) := by
    refine Moves.forM (fun e => ?_) gate.parents.entries
    exact (staysStored_sever e.1 c).bind fun _ =>
      (staysStored_addNode .copy [e.1] []).discard.repeated e.2
  exact hdivert.bind fun _ => staysStored_setLabel c (.const v)

theorem staysStored_negateResults (c : Nat) : Moves StaysStored (negateResults c) := by
  refine (moves_ask _).bind fun gate => ?_
  refine Moves.forM (fun e => ?_) gate.children.entries
  exact (staysStored_sever c e.1).bind fun _ =>
    (staysStored_addNode .not [c] [e.1]).discard.repeated e.2

theorem staysStored_foldCopy (s : Nat) : Moves StaysStored (foldCopy s) := by
  refine moves_get.bind fun g => ?_
  split
  · exact moves_pure false
  · refine (moves_ask _).bind fun copy => ?_
    split
    · exact moves_pure false
    · split
      · refine (staysStored_setLabel _ _).bind fun _ => ?_
        exact (staysStored_removeNodes _).bind fun _ => moves_pure true
      · refine (staysStored_removeNodes _).bind fun _ => ?_
        exact (staysStored_feedAll _ _).bind fun _ => moves_pure true

theorem staysStored_foldNot (s : Nat) : Moves StaysStored (foldNot s) := by
  refine moves_get.bind fun g => ?_
  split
  · exact moves_pure false
  · refine (moves_ask _).bind fun negation => ?_
    split
    · exact moves_pure false
    · refine (staysStored_setLabel _ _).bind fun _ => ?_
      exact (staysStored_removeNodes _).bind fun _ => moves_pure true

theorem staysStored_foldAndOr (s : Nat) : Moves StaysStored (foldAndOr s) := by
  refine moves_get.bind fun g => ?_
  split
  · exact moves_pure false
  · refine (staysStored_removeNodes _).bind fun _ => ?_
    split
    · exact (staysStored_absorb _ _).bind fun _ => moves_pure true
    · exact moves_pure true

theorem staysStored_foldXor (s : Nat) : Moves StaysStored (foldXor s) := by
  refine moves_get.bind fun g => ?_
  split
  · exact moves_pure false
  · refine (staysStored_removeNodes _).bind fun _ => ?_
    split
    · exact (staysStored_negateResults _).bind fun _ => moves_pure true
    · exact moves_pure true

theorem staysStored_settleNeutral (k : Nat) : Moves StaysStored (settleNeutral k) := by
  refine moves_get.bind fun g => ?_
  split
  · exact moves_pure false
  · exact (staysStored_setLabel _ _).bind fun _ => moves_pure true

theorem staysStored_splitFanOut (s : Nat) : Moves StaysStored (splitFanOut s) := by
  refine moves_get.bind fun g => ?_
  split
  · exact moves_pure false
  · refine (staysStored_removeNodes _).bind fun _ => ?_
    exact (staysStored_feedAll _ _).bind fun _ => moves_pure true

theorem staysStored_foldSource (s : Nat) : Moves StaysStored (foldSource s) := by
  refine moves_get.bind fun g => ?_
  split
  · exact moves_pure false
  · split
    · exact staysStored_splitFanOut s
    · split
      · exact moves_pure false
      · split
        · exact staysStored_foldCopy s
        · exact staysStored_foldNot s
        · exact staysStored_foldAndOr s
        · exact staysStored_foldAndOr s
        · exact staysStored_foldXor s
        all_goals exact moves_pure false

theorem staysStored_fire (rule : Rule) (k : Nat) : Moves StaysStored (rule.fire k) := by
  cases rule with
  | copy => exact staysStored_foldCopy k
  | not => exact staysStored_foldNot k
  | andOr => exact staysStored_foldAndOr k
  | xor => exact staysStored_foldXor k
  | neutral => exact staysStored_settleNeutral k
  | fanOut => exact staysStored_splitFanOut k
  | source => exact staysStored_foldSource k

theorem staysStored_fireAll (rule : Rule) (ids : List Nat) :
    Moves StaysStored (fireAll rule ids) := by
  induction ids with
  | nil => exact moves_pure false
  | cons k ids ih =>
    exact (staysStored_fire rule k).bind fun fired => ih.bind fun more => moves_pure (fired || more)

/-- **Passes leave nodes under their own ids.** -/
theorem staysStored_pass : Moves StaysStored pass := by
  have hprune : Moves StaysStored Edit.prune := fun _ hg => hg.prune
  refine moves_get.bind fun g => ?_
  refine (staysStored_fireAll .source (sources g)).bind fun folded => ?_
  refine (staysStored_fireAll .neutral (emptyGates g)).bind fun settled => ?_
  exact hprune.bind fun removed => moves_pure (folded || settled || removed != 0)

end StaysStored

/-! ## Passes -/

theorem simplifies_fireAll [Words] (rule : Rule) (ids : List Nat) :
    Simplifies (fireAll rule ids) := by
  induction ids with
  | nil => exact fun _ => rfl
  | cons k ids ih =>
    intro g
    have hfire := simplifies_fire rule k g
    rw [fireAll, Edit.runOn_bind]
    cases hrun : (rule.fire k).runOn g with
    | mk answer mid =>
      rw [hrun] at hfire
      cases answer with
      | error fault => trivial
      | ok fired =>
        have hrest := ih mid
        dsimp only
        rw [Edit.runOn_bind]
        cases hrun' : (fireAll rule ids).runOn mid with
        | mk answer h =>
          rw [hrun'] at hrest
          cases answer with
          | error fault => trivial
          | ok more => exact Improves.trans hfire hrest

/-- Pruning makes a circuit simpler unless there is nothing to remove. -/
theorem improves_prune [Words] (hg : g.Stored) : Improves (g.prune.2 != 0) g.prune.1 g := by
  induction g using Diagram.prune.induct with
  | case1 g hnone =>
    rw [Diagram.prune_eq, if_pos hnone]
    rfl
  | case2 g hsome smaller hsmaller pruned count hrest ih =>
    obtain ⟨d, hd⟩ := List.exists_mem_of_ne_nil g.deadEnds (by simpa using hsome)
    have hfirst : Improves true (g.removeNodes g.deadEnds) g :=
      simpler_removeNodes hd (contains_of_mem_deadEnds hg hd)
    have hlen := List.length_pos_of_mem hd
    have hsum : (g.deadEnds.length + (g.removeNodes g.deadEnds).prune.2 != 0) = true := by
      rw [bne_iff_ne]
      omega
    rw [Diagram.prune_eq, if_neg hsome, if_pos hsmaller]
    dsimp only
    rw [hsum]
    exact Improves.trans hfirst (ih (hg.removeNodes _))
  | case3 g hsome smaller hsmaller =>
    exact absurd (size_removeNodes_deadEnds_lt hg (by simpa using hsome)) hsmaller

/-- **A pass that reports a change makes a circuit simpler.** -/
theorem simpler_of_pass [Words] (hg : g.Stored) (hrun : pass.runOn g = (.ok true, h)) :
    Simpler h g := by
  rw [pass, runOn_get_bind, Edit.runOn_bind_eq_ok_iff] at hrun
  obtain ⟨folded, h₁, hfold, hrun⟩ := hrun
  rw [Edit.runOn_bind_eq_ok_iff] at hrun
  obtain ⟨settled, h₂, hsettle, hrun⟩ := hrun
  have hprune : (Edit.prune : Edit Gate Nat).runOn h₂ = (.ok h₂.prune.2, h₂.prune.1) := rfl
  rw [Edit.runOn_bind_ok hprune, Edit.runOn_pure, Prod.mk.injEq, Except.ok.injEq] at hrun
  obtain ⟨hchanged, rfl⟩ := hrun
  have hfolded := simplifies_fireAll .source (sources g) g
  have hstored₁ := staysStored_fireAll .source (sources g) g hg
  rw [hfold] at hfolded hstored₁
  have hsettled := simplifies_fireAll .neutral (emptyGates g) h₁
  have hstored₂ := staysStored_fireAll .neutral (emptyGates g) h₁ hstored₁
  rw [hsettle] at hsettled hstored₂
  have himproved := (Improves.trans hfolded hsettled).trans (improves_prune hstored₂)
  rwa [hchanged] at himproved

end Circuit

end Wiring
