import Wiring.Proofs.Circuit.Outputs
import Wiring.Proofs.Circuit.RuleAnswers
import Wiring.Proofs.Circuit.Termination
import Wiring.Proofs.Diagram.Orderly

/-!
# Edits that are not refused

A rule adds nodes next to gates that it has met, and would be refused only if one of those were a
terminal with an edge on its bare side. In a trim circuit there is none. So rules, passes and
normalization always answer, with or without cycles and whatever the arity of gates is. What folds
and the removal of dead ends keep of a trim circuit they keep too; and what evaluation leaves open
is which outputs have become constants.

## Main definitions

- `Circuit.Enduring` — a property of trim circuits that rewriting keeps
- `Circuit.Keeps` — an edit that is not refused where a property holds, and keeps it

## Main statements

- `Circuit.Folds.trim`, `Circuit.Folds.tidy` — folds keep circuits trim and tidy
- `Circuit.Enduring.keeps_fire`, `Circuit.Enduring.keeps_pass`, `Circuit.Enduring.keeps_normalize` —
  rules and passes
- `Circuit.evaluateWithin_of_tidy` — bits, or an output without one
-/

namespace Wiring

open scoped Unlimited

/-! ## Rebuilding trim diagrams -/

namespace Diagram

variable {α : Type} {g : Diagram α} {c : Nat} {label : α} {ps ts : List Nat}

namespace Trim

theorem divert (hg : g.Trim) (label : α) (c : Nat) (ps : List Nat) :
    (g.divert label c ps).Trim := by
  refine (hg.severAll _).attachAll fun e he => ?_
  obtain ⟨p, hp, rfl⟩ := List.mem_map.1 he
  constructor
  · intro q hq
    obtain rfl := List.mem_singleton.1 hq
    rw [contains_severAll, outputs_severAll]
    exact ⟨hg.coherent.contains_of_mem_above hp, hg.not_mem_outputs hp⟩
  · exact fun _ hmem => nomatch hmem

theorem interpose (hg : g.Trim) (label : α) (c : Nat) (ts : List Nat) :
    (g.interpose label c ts).Trim := by
  refine (hg.severAll _).attachAll fun e he => ?_
  obtain ⟨t, ht, rfl⟩ := List.mem_map.1 he
  constructor
  · intro p hp
    obtain rfl := List.mem_singleton.1 hp
    rw [contains_severAll, outputs_severAll]
    exact ⟨contains_of_mem_below ht, hg.not_mem_outputs (hg.coherent.mem_above_iff.2 ht)⟩
  · intro k hk
    obtain rfl := List.mem_singleton.1 hk
    rw [contains_severAll, inputs_severAll]
    exact ⟨hg.coherent.contains_of_mem_below ht, hg.not_mem_inputs ht⟩

theorem feed (hg : g.Trim) (label : α)
    (hts : ∀ t ∈ ts, g.contains t = true ∧ t ∉ g.inputs) : (g.feed label ts).Trim := by
  refine hg.attachAll fun e he => ?_
  obtain ⟨t, ht, rfl⟩ := List.mem_map.1 he
  refine ⟨fun _ hmem => (nomatch hmem), fun k hk => ?_⟩
  obtain rfl := List.mem_singleton.1 hk
  exact hts k ht

/-- The children of a removed node are no inputs. -/
theorem not_mem_inputs_removeNode (hg : g.Trim) {i k t : Nat} (ht : t ∈ g.below i) :
    t ∉ (g.removeNode k).inputs := fun hmem =>
  hg.not_mem_inputs ht (mem_inputs_removeNode.1 hmem).1

end Trim

namespace Tidy

theorem divert (hg : g.Tidy) (label : α) (c : Nat) (ps : List Nat) :
    (g.divert label c ps).Tidy :=
  hg.of_trim (hg.trim.divert label c ps) (fun k hk => by
    rw [Diagram.divert, contains_attachAll, contains_severAll, hk, Bool.true_or])
    inputs_divert outputs_divert

theorem interpose (hg : g.Tidy) (label : α) (c : Nat) (ts : List Nat) :
    (g.interpose label c ts).Tidy :=
  hg.of_trim (hg.trim.interpose label c ts) (fun k hk => by
    rw [Diagram.interpose, contains_attachAll, contains_severAll, hk, Bool.true_or])
    inputs_interpose outputs_interpose

theorem feed (hg : g.Tidy) (label : α)
    (hts : ∀ t ∈ ts, g.contains t = true ∧ t ∉ g.inputs) : (g.feed label ts).Tidy :=
  hg.of_trim (hg.trim.feed label hts)
    (fun k hk => by rw [Diagram.feed, contains_attachAll, hk, Bool.true_or])
    inputs_feed outputs_feed

end Tidy

end Diagram

namespace Diagram

variable {α : Type} {g : Diagram α}

/-- No dead end is an output. -/
theorem outputs_removeNodes_deadEnds : (g.removeNodes g.deadEnds).outputs = g.outputs := by
  refine outputs_removeNodes fun i hi => ?_
  obtain ⟨n, hn, rfl⟩ := List.mem_map.1 hi
  have hdead := (List.mem_filter.1 hn).2
  simp only [isOutput, Bool.and_eq_true, Bool.not_eq_true', List.contains_eq_mem,
    decide_eq_false_iff_not] at hdead
  exact hdead.2

end Diagram

namespace Circuit

variable {β γ : Type} {g h : Circuit} {s c k : Nat} {v : Bool} {label : Gate}

/-! ## Folds of trim circuits -/

theorem Feeds.source_not_mem_outputs (hf : Feeds g s v c) (hg : g.Trim) : s ∉ g.outputs :=
  hg.not_mem_outputs (hf.mem_above hg.coherent)

/-- **Folds keep circuits trim.** -/
theorem Folds.trim (hfold : Folds g h) (hg : g.Trim) : h.Trim := by
  cases hfold with
  | resolve hf hc hlabel => exact (hg.relabel _ _).removeNode _
  | drop hf hc hv => exact hg.removeNode _
  | absorb hf hc hv ps hps => exact ((hg.removeNode _).divert _ _ ps).relabel _ _
  | negate hf hc ts hts => exact (hg.removeNode _).interpose _ _ ts
  | settle hc hv habove => exact hg.relabel _ _
  | split hs habove hmany =>
    exact (hg.removeNode _).feed _ fun t ht =>
      ⟨hg.coherent.contains_child_removeNode habove ht, hg.not_mem_inputs_removeNode ht⟩

/-- **Folds keep circuits tidy.** -/
theorem Folds.tidy (hfold : Folds g h) (hg : g.Tidy) : h.Tidy := by
  cases hfold with
  | resolve hf hc hlabel => exact (hg.relabel _ _).removeNode _
  | drop hf hc hv => exact hg.removeNode _
  | absorb hf hc hv ps hps => exact ((hg.removeNode _).divert _ _ ps).relabel _ _
  | negate hf hc ts hts => exact (hg.removeNode _).interpose _ _ ts
  | settle hc hv habove => exact hg.relabel _ _
  | split hs habove hmany =>
    exact (hg.removeNode _).feed _ fun t ht =>
      ⟨hg.coherent.contains_child_removeNode habove ht, hg.trim.not_mem_inputs_removeNode ht⟩

theorem Folds.outputs_eq (hfold : Folds g h) (hg : g.Trim) : h.outputs = g.outputs := by
  cases hfold with
  | resolve hf hc hlabel =>
    exact Diagram.outputs_removeNode (hf.source_not_mem_outputs hg)
  | drop hf hc hv => exact Diagram.outputs_removeNode (hf.source_not_mem_outputs hg)
  | absorb hf hc hv ps hps =>
    exact Diagram.outputs_divert.trans
      (Diagram.outputs_removeNode (hf.source_not_mem_outputs hg))
  | negate hf hc ts hts =>
    exact Diagram.outputs_interpose.trans
      (Diagram.outputs_removeNode (hf.source_not_mem_outputs hg))
  | settle hc hv habove => rfl
  | split hs habove hmany =>
    refine Diagram.outputs_feed.trans (Diagram.outputs_removeNode fun hmem => ?_)
    rw [(hg.output _ hmem).2] at hmany
    exact Nat.not_lt_zero _ hmany

/-! ## Rules -/

/-- The edit is not refused. -/
def Answers (e : Edit Gate β) (g : Circuit) : Prop := ∃ b h, e.runOn g = (.ok b, h)

theorem answers_pure (b : β) (g : Circuit) : Answers (pure b) g := ⟨b, g, rfl⟩

theorem Answers.after {e : Edit Gate β} {b : β} {f : β → Edit Gate γ}
    (he : e.runOn g = (.ok b, h)) (hf : Answers (f b) h) : Answers (e >>= f) g := by
  obtain ⟨c, h', hrun⟩ := hf
  exact ⟨c, h', (Edit.runOn_bind_ok he f).trans hrun⟩

theorem Answers.after_find {n : Node Gate} {f : Node Gate → Edit Gate β}
    (hn : g.node? c = some n) (hf : Answers (f n) g) :
    Answers (Edit.ask (·.find c) >>= f) g := by
  refine .after ?_ hf
  rw [Edit.runOn_ask, Diagram.find_eq_ok_iff.2 hn]

theorem answers_feedsKind (hpos : g.Positive) (s : Nat) (kind : Gate → Bool)
    (body : Circuit → Bool → Nat → Edit Gate Bool)
    (h : ∀ v c label, Feeds g s v c → g.label? c = some label → kind label = true →
      Answers (body g v c) g) :
    Answers (get >>= fun g => match feedsKind? g s kind with
      | none => pure false
      | some (v, c) => body g v c) g := by
  refine .after (Edit.runOn_get g) ?_
  cases hkind : feedsKind? g s kind with
  | none => exact answers_pure false g
  | some e =>
    obtain ⟨v, c⟩ := e
    obtain ⟨hf, label, hc, hlabel⟩ := (feedsKind?_eq_some_iff hpos).1 hkind
    exact h v c label hf hc hlabel

section Rules

variable (hg : g.Trim)
include hg

theorem answers_foldCopy (s : Nat) : Answers (foldCopy s) g := by
  apply answers_feedsKind hg.coherent.positive s _ _
  intro v c label hf hc hkind
  have htarget := hf.contains_target hg.coherent
  obtain ⟨n, hn⟩ := Diagram.contains_iff.1 htarget
  refine .after_find hn ?_
  split
  · exact answers_pure false g
  · rename_i hin
    split
    · refine .after (Edit.runOn_setLabel htarget) ?_
      exact .after (Edit.runOn_change _ _) (answers_pure true _)
    · -- the children of the copy survive the removal of the two, and having parents are no inputs
      have hone : (g.above c).length = 1 :=
        (Diagram.length_above_of_node? hn).trans (not_not.1 hin)
      refine .after (Edit.runOn_change _ _) ?_
      refine .after (runOn_feedAll (fun k hk => ?_) (hg.coherent.positive c n hn).2)
        (answers_pure true _)
      rw [← Diagram.below_of_node? hn] at hk
      refine ⟨hf.contains_result hg.coherent hone hk, fun hmem => ?_⟩
      exact hg.not_mem_inputs_removeNode hk (Diagram.mem_inputs_removeNode.1 hmem).1

theorem answers_foldNot (s : Nat) : Answers (foldNot s) g := by
  apply answers_feedsKind hg.coherent.positive s _ _
  intro v c label hf hc hkind
  have htarget := hf.contains_target hg.coherent
  obtain ⟨n, hn⟩ := Diagram.contains_iff.1 htarget
  refine .after_find hn ?_
  split
  · exact answers_pure false g
  · refine .after (Edit.runOn_setLabel htarget) ?_
    exact .after (Edit.runOn_change _ _) (answers_pure true _)

theorem answers_foldAndOr (s : Nat) : Answers (foldAndOr s) g := by
  refine answers_feedsKind hg.coherent.positive s _
    (fun g v c => do
      Edit.change (·.removeNodes [s])
      if (g.label? c).bind Gate.absorbing? = some v then absorb c v else pure ()
      pure true) ?_
  intro v c label hf hc hkind
  refine .after (Edit.runOn_change _ _) ?_
  split
  · have hsmaller := hg.removeNode s
    obtain ⟨ps, -, habsorb⟩ := runOn_absorb (v := v) hsmaller.coherent hsmaller.idsBelow
      (hf.contains_removeNode_target hg.coherent) fun p hp => hsmaller.not_mem_outputs hp
    exact .after habsorb (answers_pure true _)
  · exact answers_pure true _

theorem answers_foldXor (s : Nat) : Answers (foldXor s) g := by
  apply answers_feedsKind hg.coherent.positive s _ _
  intro v c label hf hc hkind
  refine .after (Edit.runOn_change _ _) ?_
  split
  · have hsmaller := hg.removeNode s
    obtain ⟨ts, -, hnegate⟩ := runOn_negateResults hsmaller.coherent hsmaller.idsBelow
      (hf.contains_removeNode_target hg.coherent)
      (fun hmem => hf.notOutput (Diagram.mem_outputs_removeNode.1 hmem).1)
      fun t ht => hsmaller.not_mem_inputs ht
    exact .after hnegate (answers_pure true _)
  · exact answers_pure true _

theorem answers_splitFanOut (s : Nat) : Answers (splitFanOut s) g := by
  refine .after (Edit.runOn_get g) ?_
  cases hfan : fanOut? g s with
  | none => exact answers_pure false g
  | some e =>
    obtain ⟨v, children⟩ := e
    obtain ⟨n, hn, hl, habove, hmany, rfl⟩ := fanOut?_eq_some_iff.1 hfan
    refine .after (Edit.runOn_change _ _) ?_
    refine .after (runOn_feedAll (fun k hk => ?_) (hg.coherent.positive s n hn).2)
      (answers_pure true _)
    rw [← Diagram.below_of_node? hn] at hk
    exact ⟨hg.coherent.contains_child_removeNode habove hk, hg.not_mem_inputs_removeNode hk⟩

omit hg in
theorem answers_settleNeutral (g : Circuit) (k : Nat) : Answers (settleNeutral k) g := by
  rcases settleNeutral_spec g k with ⟨-, h, hrun, -⟩ | ⟨-, hrun⟩
  · exact ⟨true, h, hrun⟩
  · exact ⟨false, g, hrun⟩

theorem answers_foldSource (s : Nat) : Answers (foldSource s) g := by
  refine .after (Edit.runOn_get g) ?_
  split
  · exact answers_pure false g
  · split
    · exact answers_splitFanOut hg s
    · split
      · exact answers_pure false g
      · rename_i v c hfeeds
        split
        · exact answers_foldCopy hg s
        · exact answers_foldNot hg s
        · exact answers_foldAndOr hg s
        · exact answers_foldAndOr hg s
        · exact answers_foldXor hg s
        all_goals exact answers_pure false g

/-- **No rule is refused.** -/
theorem answers_fire (rule : Rule) (k : Nat) : Answers (rule.fire k) g := by
  cases rule with
  | copy => exact answers_foldCopy hg k
  | not => exact answers_foldNot hg k
  | andOr => exact answers_foldAndOr hg k
  | xor => exact answers_foldXor hg k
  | neutral => exact answers_settleNeutral g k
  | fanOut => exact answers_splitFanOut hg k
  | source => exact answers_foldSource hg k

end Rules

/-! ## Properties that rewriting keeps -/

/-- **A property of trim circuits that rewriting keeps**: folds do not take it away, nor does the
    removal of dead ends. -/
structure Enduring (P : Circuit → Prop) : Prop where
  trim : ∀ {g}, P g → g.Trim
  fold : ∀ {g h}, P g → Folds g h → P h
  deadEnds : ∀ {g}, P g → P (g.removeNodes g.deadEnds)

/-- The edit is not refused where `P` holds, and keeps it. -/
def Keeps (P : Circuit → Prop) (e : Edit Gate β) : Prop :=
  ∀ g, P g → ∃ b h, e.runOn g = (.ok b, h) ∧ P h

variable {P : Circuit → Prop}

theorem keeps_pure (b : β) : Keeps P (pure b) := fun g hg => ⟨b, g, rfl, hg⟩

theorem keeps_get : Keeps P get := fun g hg => ⟨g, g, rfl, hg⟩

theorem Keeps.bind {e : Edit Gate β} {f : β → Edit Gate γ} (he : Keeps P e)
    (hf : ∀ b, Keeps P (f b)) : Keeps P (e >>= f) := by
  intro g hg
  obtain ⟨b, mid, hrun, hmid⟩ := he g hg
  obtain ⟨c, h, hrest, hh⟩ := hf b mid hmid
  exact ⟨c, h, (Edit.runOn_bind_ok hrun f).trans hrest, hh⟩

namespace Enduring

variable (hP : Enduring P)
include hP

theorem of_transGen (hfolds : Relation.TransGen Folds g h) (hg : P g) : P h := by
  induction hfolds with
  | single hfold => exact hP.fold hg hfold
  | tail _ hfold ih => exact hP.fold ih hfold

theorem keeps_fire (rule : Rule) (k : Nat) : Keeps P (rule.fire k) := by
  intro g hg
  have htrim := hP.trim hg
  obtain ⟨fired, h, hrun⟩ := answers_fire htrim rule k
  refine ⟨fired, h, hrun, ?_⟩
  rcases fire_foldsOrNot htrim.coherent htrim.idsBelow rule k fired h hrun with
    ⟨-, hfolds⟩ | ⟨-, rfl⟩
  · exact hP.of_transGen hfolds hg
  · exact hg

theorem keeps_fireAll (rule : Rule) (ids : List Nat) : Keeps P (fireAll rule ids) := by
  induction ids with
  | nil => exact keeps_pure false
  | cons k ids ih =>
    refine (hP.keeps_fire rule k).bind fun fired => ?_
    exact ih.bind fun more => keeps_pure (fired || more)

theorem keeps_prune : Keeps P (Edit.prune : Edit Gate Nat) := fun g hg =>
  ⟨g.prune.2, g.prune.1, rfl, Diagram.of_prune (fun _ => hP.deadEnds) hg⟩

/-- **Passes keep what rewriting keeps**, and are never refused. -/
theorem keeps_pass : Keeps P pass := by
  refine keeps_get.bind fun g => ?_
  refine (hP.keeps_fireAll .source (sources g)).bind fun folded => ?_
  refine (hP.keeps_fireAll .neutral (emptyGates g)).bind fun settled => ?_
  exact hP.keeps_prune.bind fun removed => keeps_pure (folded || settled || removed != 0)

theorem keeps_normalizeUpTo (n : Nat) : Keeps P (normalizeUpTo n) := by
  induction n with
  | zero => exact keeps_pure 0
  | succ n ih =>
    refine hP.keeps_pass.bind fun changed => ?_
    cases changed with
    | true => exact ih.bind fun passes => keeps_pure (passes + 1)
    | false => exact keeps_pure 0

theorem keeps_normalize : ∀ limit, Keeps P (normalize limit)
  | some limit => hP.keeps_normalizeUpTo limit
  | none => by
    intro g hg
    obtain ⟨n, hn⟩ := exists_normalizeUpTo (hP.trim hg).coherent.stored
    rw [← hn n (Nat.le_refl n)]
    exact hP.keeps_normalizeUpTo n g hg

end Enduring

theorem enduring_tidy (os : List Nat) :
    Enduring fun g : Circuit => g.Tidy ∧ g.outputs = os where
  trim hg := hg.1.trim
  fold hg hfold := ⟨hfold.tidy hg.1, (hfold.outputs_eq hg.1.trim).trans hg.2⟩
  deadEnds hg := ⟨hg.1.removeNodes _, Diagram.outputs_removeNodes_deadEnds.trans hg.2⟩

/-! ## Evaluation -/

theorem outputBits_of_tidy (hg : g.Tidy) : (∃ bits, outputBits g = .ok bits) ∨
    ∃ o ∈ g.outputs, outputBits g = .error (.unresolved o) := by
  rw [outputBits]
  rcases mapM_ok_or_error fun o ho => outputBit_of_contains (hg.output o ho).1 with
    ⟨bits, hbits⟩ | ⟨o, ho, hfault⟩
  · rw [hbits]
    exact .inl ⟨String.ofList bits, rfl⟩
  · rw [hfault]
    exact .inr ⟨o, ho, rfl⟩

/-- **Evaluation of tidy circuits** ends with a bit for every output, or with an output that has
    none. -/
theorem evaluateWithin_of_tidy (hg : g.Tidy) (limit : Option Nat) :
    (∃ bits, evaluateWithin limit g = .ok bits) ∨
      ∃ o ∈ g.outputs, evaluateWithin limit g = .error (.unresolved o) := by
  obtain ⟨passes, reduced, hrun, hreduced, houtputs⟩ :=
    (enduring_tidy g.outputs).keeps_normalize limit g ⟨hg, rfl⟩
  rw [evaluateWithin, hrun, ← houtputs]
  exact outputBits_of_tidy hreduced

end Circuit

end Wiring
