import Wiring.Proofs.Circuit.Bulk
import Wiring.Proofs.Diagram.RaisedEdits

/-!
# Folding under raised ids

The rules of folding look at a node and its neighbours, and give their new nodes the ids that the
circuit has in store. So each of them does on a raised circuit what it does on the circuit as it is,
and the same is true of everything that is made of them: passes, normalization and evaluation.

## Main statements

- `Rule.raises_fire` — every rule
- `Circuit.raises_pass`, `Circuit.raises_normalize` — passes and normalization
- `Circuit.evaluateWithin_raise` — evaluation
-/

namespace Wiring

open scoped Unlimited

namespace Circuit

variable {g : Circuit} {d k s : Nat}

/-! ## Questions that the rules ask -/

theorem isSourceNode_shift (n : Node Gate) : isSourceNode (n.shift d) = isSourceNode n := by
  rw [isSourceNode, Node.indegree_shift]
  rfl

theorem isSource_raise : isSource (g.raise d) (k + d) = isSource g k := by
  rw [isSource, Diagram.node?_raise, isSource]
  cases g.node? k with
  | none => rfl
  | some n => exact isSourceNode_shift n

theorem sources_raise : sources (g.raise d) = (sources g).map (· + d) := by
  have hnodes : (g.raise d).nodes.filter (fun _ n => isSourceNode n) =
      (g.nodes.filter fun _ n => isSourceNode n).raise d (·.shift d) :=
    IdMap.filter_raise fun _ n => isSourceNode_shift n
  rw [sources, hnodes, IdMap.keys_raise, sources]

theorem emptyGates_raise : emptyGates (g.raise d) = (emptyGates g).map (· + d) := by
  refine Diagram.map_id_filter_raise fun n => ?_
  rw [Node.indegree_shift]
  rfl

theorem feeds?_raise : feeds? (g.raise d) (s + d) = (feeds? g s).map (Prod.map id (· + d)) := by
  unfold feeds?
  rw [Diagram.node?_raise]
  cases g.node? s with
  | none => rfl
  | some n =>
    simp only [Option.map_some, Option.bind_eq_bind, Option.bind_some, Node.indegree_shift,
      Node.label_shift, Node.single?_children_shift]
    cases n.label.value? with
    | none => rfl
    | some v =>
      by_cases hin : n.indegree = 0
      · cases n.children.single? with
        | none => simp [guard, hin]
        | some c =>
          by_cases hc : g.isOutput c = true <;> simp [guard, hin, hc]
      · simp [guard, hin]

theorem feedsKind?_raise (kind : Gate → Bool) : feedsKind? (g.raise d) (s + d) kind =
    (feedsKind? g s kind).map (Prod.map id (· + d)) := by
  unfold feedsKind?
  rw [feeds?_raise]
  cases feeds? g s with
  | none => rfl
  | some e =>
    obtain ⟨v, c⟩ := e
    simp only [Option.map_some, Option.bind_eq_bind, Option.bind_some, Prod.map_apply,
      Diagram.label?_raise]
    cases g.label? c with
    | none => rfl
    | some label => by_cases hkind : kind label = true <;> simp [guard, hkind]

theorem emptyValue?_raise : emptyValue? (g.raise d) (k + d) = emptyValue? g k := by
  unfold emptyValue?
  rw [Diagram.node?_raise]
  cases g.node? k with
  | none => rfl
  | some n =>
    simp only [Option.map_some, Option.bind_eq_bind, Option.bind_some, Node.indegree_shift,
      Node.label_shift]

theorem fanOut?_raise :
    fanOut? (g.raise d) (s + d) = (fanOut? g s).map (Prod.map id (IdMap.shift · d)) := by
  unfold fanOut?
  rw [Diagram.node?_raise]
  cases g.node? s with
  | none => rfl
  | some n =>
    simp only [Option.map_some, Option.bind_eq_bind, Option.bind_some, Node.indegree_shift,
      Node.outdegree_shift, Node.label_shift, Node.children_shift]
    cases n.label.value? with
    | none => rfl
    | some v =>
      by_cases hmany : n.indegree = 0 ∧ 1 < n.outdegree
      · rw [guard, if_pos hmany]
        rfl
      · rw [guard, if_neg hmany]
        rfl

/-! ## Pieces of rules -/

open Edit

theorem raises_feedAll (v : Bool) (t : Tally) :
    Raises d id (feedAll v t) (feedAll v (t.shift d)) := by
  rw [feedAll, feedAll]
  refine Raises.forM_entries (fun k m => ?_) t
  exact (raises_addNode (Gate.const v) [] [k]).discard.repeated m

theorem raises_divertAll (c : Nat) (t : Tally) :
    Raises d id (divertAll c t) (divertAll (c + d) (t.shift d)) := by
  rw [divertAll, divertAll]
  refine Raises.forM_entries (fun k m => ?_) t
  refine (raises_sever k c).bind fun _ => ?_
  exact (raises_addNode Gate.copy [k] []).discard.repeated m

theorem raises_negateAll (c : Nat) (t : Tally) :
    Raises d id (negateAll c t) (negateAll (c + d) (t.shift d)) := by
  rw [negateAll, negateAll]
  refine Raises.forM_entries (fun k m => ?_) t
  refine (raises_sever c k).bind fun _ => ?_
  exact (raises_addNode Gate.not [c] [k]).discard.repeated m

theorem raises_absorb (c : Nat) (v : Bool) :
    Raises d id (absorb c v) (absorb (c + d) v) := by
  refine (raises_ask fun g => g.find_raise).bind fun gate => ?_
  rw [Node.parents_shift]
  exact (raises_divertAll c gate.parents).bind fun _ => raises_setLabel c (Gate.const v)

theorem raises_negateResults (c : Nat) :
    Raises d id (negateResults c) (negateResults (c + d)) := by
  refine (raises_ask fun g => g.find_raise).bind fun gate => ?_
  rw [Node.children_shift]
  exact raises_negateAll c gate.children

/-! ## Rules -/

/-- A rule about sources that feed a certain kind of gate. -/
theorem raises_feedsKind (s : Nat) (kind : Gate → Bool)
    (body body' : Circuit → Bool → Nat → Edit Gate Bool)
    (h : ∀ g v c, Raises d id (body g v c) (body' (g.raise d) v (c + d))) :
    Raises d id
      (get >>= fun g => match feedsKind? g s kind with
        | none => pure false
        | some (v, c) => body g v c)
      (get >>= fun g => match feedsKind? g (s + d) kind with
        | none => pure false
        | some (v, c) => body' g v c) := by
  refine raises_get.bind fun g => ?_
  rw [feedsKind?_raise]
  cases feedsKind? g s kind with
  | none => exact raises_pure false
  | some e => exact h g e.1 e.2

theorem raises_foldCopy (s : Nat) : Raises d id (foldCopy s) (foldCopy (s + d)) := by
  apply raises_feedsKind s _ _ _
  intro g v c
  refine (raises_ask fun g => g.find_raise).bind fun copy => ?_
  rw [Node.indegree_shift, Node.outdegree_shift, Node.children_shift]
  split
  · exact raises_pure false
  · split
    · refine (raises_setLabel c (Gate.const v)).bind fun _ => ?_
      exact (raises_removeNodes [s]).bind fun _ => raises_pure true
    · refine (raises_removeNodes [s, c]).bind fun _ => ?_
      exact (raises_feedAll v copy.children).bind fun _ => raises_pure true

theorem raises_foldNot (s : Nat) : Raises d id (foldNot s) (foldNot (s + d)) := by
  apply raises_feedsKind s _ _ _
  intro g v c
  refine (raises_ask fun g => g.find_raise).bind fun negation => ?_
  rw [Node.indegree_shift]
  split
  · exact raises_pure false
  · refine (raises_setLabel c (Gate.const !v)).bind fun _ => ?_
    exact (raises_removeNodes [s]).bind fun _ => raises_pure true

theorem raises_foldAndOr (s : Nat) : Raises d id (foldAndOr s) (foldAndOr (s + d)) := by
  apply raises_feedsKind s _ _ _
  intro g v c
  refine (raises_removeNodes [s]).bind fun _ => ?_
  rw [Diagram.label?_raise]
  split
  · exact (raises_absorb c v).bind fun _ => raises_pure true
  · exact raises_pure true

theorem raises_foldXor (s : Nat) : Raises d id (foldXor s) (foldXor (s + d)) := by
  apply raises_feedsKind s _ _ _
  intro g v c
  refine (raises_removeNodes [s]).bind fun _ => ?_
  cases v with
  | true => exact (raises_negateResults c).bind fun _ => raises_pure true
  | false => exact raises_pure true

theorem raises_settleNeutral (k : Nat) :
    Raises d id (settleNeutral k) (settleNeutral (k + d)) := by
  refine raises_get.bind fun g => ?_
  rw [emptyValue?_raise]
  cases emptyValue? g k with
  | none => exact raises_pure false
  | some v => exact (raises_setLabel k (Gate.const v)).bind fun _ => raises_pure true

theorem raises_splitFanOut (s : Nat) : Raises d id (splitFanOut s) (splitFanOut (s + d)) := by
  refine raises_get.bind fun g => ?_
  rw [fanOut?_raise]
  cases fanOut? g s with
  | none => exact raises_pure false
  | some e =>
    obtain ⟨v, children⟩ := e
    refine (raises_removeNodes [s]).bind fun _ => ?_
    exact (raises_feedAll v children).bind fun _ => raises_pure true

theorem raises_foldSource (s : Nat) : Raises d id (foldSource s) (foldSource (s + d)) := by
  refine raises_get.bind fun g => ?_
  rw [isSource_raise, fanOut?_raise, Option.isSome_map, feeds?_raise]
  split
  · exact raises_pure false
  · split
    · exact raises_splitFanOut s
    · cases feeds? g s with
      | none => exact raises_pure false
      | some e =>
        obtain ⟨v, c⟩ := e
        dsimp only [Option.map_some, Prod.map_apply]
        rw [Diagram.label?_raise]
        split
        · exact raises_foldCopy s
        · exact raises_foldNot s
        · exact raises_foldAndOr s
        · exact raises_foldAndOr s
        · exact raises_foldXor s
        all_goals exact raises_pure false

end Circuit

/-- **Rules** under raised ids. -/
theorem Rule.raises_fire {d : Nat} (rule : Rule) (k : Nat) :
    Edit.Raises d id (rule.fire k) (rule.fire (k + d)) := by
  cases rule with
  | copy => exact Circuit.raises_foldCopy k
  | not => exact Circuit.raises_foldNot k
  | andOr => exact Circuit.raises_foldAndOr k
  | xor => exact Circuit.raises_foldXor k
  | neutral => exact Circuit.raises_settleNeutral k
  | fanOut => exact Circuit.raises_splitFanOut k
  | source => exact Circuit.raises_foldSource k

namespace Circuit

variable {g : Circuit} {d : Nat}

open Edit

/-! ## Passes -/

theorem raises_fireAll (rule : Rule) (ids : List Nat) :
    Raises d id (fireAll rule ids) (fireAll rule (ids.map (· + d))) := by
  induction ids with
  | nil => exact raises_pure false
  | cons k ids ih =>
    refine (rule.raises_fire k).bind fun fired => ?_
    exact ih.bind fun more => raises_pure (fired || more)

/-- **A pass** under raised ids. -/
theorem raises_pass : Raises d id pass pass := by
  refine raises_get.bind fun g => ?_
  rw [sources_raise, emptyGates_raise]
  refine (raises_fireAll .source (sources g)).bind fun folded => ?_
  refine (raises_fireAll .neutral (emptyGates g)).bind fun settled => ?_
  exact raises_prune.bind fun removed => raises_pure (folded || settled || removed != 0)

theorem raises_normalizeUpTo (n : Nat) : Raises d id (normalizeUpTo n) (normalizeUpTo n) := by
  induction n with
  | zero => exact raises_pure 0
  | succ n ih =>
    refine raises_pass.bind fun changed => ?_
    cases changed with
    | true => exact ih.bind fun passes => raises_pure (passes + 1)
    | false => exact raises_pure 0

theorem sumOf_raise {f : Node Gate → Nat} (hf : ∀ n, f (n.shift d) = f n) :
    Diagram.sumOf (g.raise d) f = Diagram.sumOf g f := by
  rw [Diagram.sumOf, Diagram.sumOf, Diagram.values_raise, List.foldr_map]
  simp only [hf]

theorem simpler_raise {h : Circuit} : Simpler (h.raise d) (g.raise d) ↔ Simpler h g := by
  have hgates (g : Circuit) : gateCount (g.raise d) = gateCount g := sumOf_raise fun _ => rfl
  have hbulk (g : Circuit) : bulk (g.raise d) = bulk g := sumOf_raise fun n => by
    rw [Node.outdegree_shift]
    rfl
  rw [Simpler, hgates, hgates, hbulk, hbulk, Diagram.size_raise, Diagram.size_raise, Simpler]

/-- **Normalization** under raised ids. -/
theorem raises_normalize : ∀ limit, Raises d id (normalize limit) (normalize limit)
  | some limit => raises_normalizeUpTo limit
  | none => by
    intro g
    show normalizeFully (g.raise d) =
      (raiseAnswer d id (normalizeFully g).1, Diagram.raise d (normalizeFully g).2)
    induction g using Simpler.wellFounded.induction with
    | h g ih =>
      rw [normalizeFully, raises_pass, normalizeFully]
      match pass.runOn g with
      | (.error fault, h) => rfl
      | (.ok false, h) => rfl
      | (.ok true, h) =>
        by_cases hsimpler : Simpler h g
        · dsimp only [raiseAnswer, id]
          rw [if_pos hsimpler, if_pos (simpler_raise.2 hsimpler), ih h hsimpler]
          cases (normalizeFully h).1 <;> rfl
        · dsimp only [raiseAnswer, id]
          rw [if_neg hsimpler, if_neg (simpler_raise.not.2 hsimpler)]

/-! ## Evaluation -/

theorem outputBit_raise (o : Nat) :
    outputBit (g.raise d) (o + d) = raiseAnswer d id (outputBit g o) := by
  rw [outputBit, outputBit, Diagram.find_raise]
  refine raiseAnswer_bind fun n => ?_
  rw [Node.single?_parents_shift]
  cases n.parents.single? with
  | none => rfl
  | some p =>
    simp only [Option.map_some, Option.bind_some, Diagram.label?_raise]
    cases (Diagram.label? g p).bind Gate.value? <;> rfl

theorem outputBits_raise : outputBits (g.raise d) = raiseAnswer d id (outputBits g) := by
  have hbits : (g.raise d).outputs.mapM (outputBit (g.raise d)) =
      raiseAnswer d (List.map id) (g.outputs.mapM (outputBit g)) :=
    raiseAnswer_mapM outputBit_raise g.outputs
  rw [outputBits, outputBits, hbits]
  refine raiseAnswer_bind fun bits => ?_
  rw [List.map_id]
  rfl

/-- **Evaluation** of raised circuits. -/
theorem evaluateWithin_raise (limit : Option Nat) :
    evaluateWithin limit (g.raise d) = raiseAnswer d id (evaluateWithin limit g) := by
  rw [evaluateWithin, evaluateWithin, raises_normalize limit]
  match (normalize limit).runOn g with
  | (.ok passes, reduced) => exact outputBits_raise
  | (.error fault, reduced) => rfl

end Circuit

end Wiring
