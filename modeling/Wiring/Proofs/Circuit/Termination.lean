import Mathlib.Order.WellFounded
import Wiring.Proofs.Circuit.Simplifying
import Wiring.Proofs.Words.Degrees

/-!
# Rewriting comes to an end

Rules and the removal of dead ends may be applied wherever they fit and in any order: the circuit
gets simpler with every step, on circuits with cycles and with gates of any arity too, and also
where counts and ids wrap around. The loops that prune and normalize until nothing changes are
described by what they lead to, without a bound on their rounds, and lead to what is computed.

## Main definitions

- `Circuit.Step` — a rule that fits, or the removal of a node that nothing needs
- `Circuit.PrunesTo`, `Circuit.NormalizesTo` — the ends of the unbounded loops

## Main statements

- `Circuit.Step.simpler` — every step makes a circuit simpler
- `Circuit.exists_normalizeUpTo` — enough passes are as good as any number of them
- `Circuit.rewriting_terminates` — there is no infinite sequence of steps, and the loops end
-/

namespace Wiring

namespace Circuit

/-- **A step of rewriting**: a rule fits at some node, or a node goes that counts no edge out and is
    no output. -/
inductive Step [Words] : Circuit → Circuit → Prop where
  | fire {g h} (rule : Rule) (k : Nat) (hrun : (rule.fire k).runOn g = (.ok true, h)) : Step g h
  | delete {g d n} (hn : g.node? d = some n) (hempty : n.outdegree = 0) (hd : d ∉ g.outputs) :
      Step g (g.removeNode d)

/-- **The loop that prunes**: all dead ends go, round after round, until there is none. -/
inductive PrunesTo [Words] : Circuit → Circuit → Nat → Prop where
  | done {g} (hnone : g.deadEnds = []) : PrunesTo g g 0
  | round {g h n} (hsome : g.deadEnds ≠ []) (hrest : PrunesTo (g.removeNodes g.deadEnds) h n) :
      PrunesTo g h (g.deadEnds.length + n)

/-- **The loop that normalizes**: passes run until one changes nothing or is refused. -/
inductive NormalizesTo [Words] : Circuit → Except Fault Nat → Circuit → Prop where
  | refused {g h fault} (hrun : pass.runOn g = (.error fault, h)) :
      NormalizesTo g (.error fault) h
  | done {g h} (hrun : pass.runOn g = (.ok false, h)) : NormalizesTo g (.ok 0) h
  | more {g h answer h'} (hrun : pass.runOn g = (.ok true, h)) (hrest : NormalizesTo h answer h') :
      NormalizesTo g (answer.map (· + 1)) h'

variable {g h : Circuit} {n : Nat}

/-! ## Steps -/

/-- **Every step makes a circuit simpler.** -/
theorem Step.simpler [Words] (hstep : Step g h) : Simpler h g := by
  cases hstep with
  | fire rule k hrun =>
    have hfire := simplifies_fire rule k g
    rwa [hrun] at hfire
  | @delete d n hn _ _ =>
    exact simpler_removeNodes (List.mem_singleton_self d) (Diagram.contains_iff.2 ⟨n, hn⟩)

/-! ## Pruning -/

/-- The loop that prunes ends, with what `Diagram.prune` computes. -/
theorem prunesTo_of_stored [Words] (hg : g.Stored) : PrunesTo g g.prune.1 g.prune.2 := by
  induction g using Diagram.prune.induct with
  | case1 g hnone =>
    rw [Diagram.prune_eq, if_pos hnone]
    exact .done (by simpa using hnone)
  | case2 g hsome smaller hsmaller pruned count hrest ih =>
    rw [Diagram.prune_eq, if_neg hsome, if_pos hsmaller]
    exact .round (by simpa using hsome) (ih (hg.removeNodes g.deadEnds))
  | case3 g hsome smaller hsmaller =>
    exact absurd (size_removeNodes_deadEnds_lt hg (by simpa using hsome)) hsmaller

/-- The loop takes the same rounds with limited words that hold the degrees. -/
theorem PrunesTo.of_unlimited [Words] (hprune : letI := Unlimited.words; PrunesTo g h n)
    (hg : g.Coherent) (hdegrees : g.DegreesHold) : PrunesTo g h n := by
  induction hprune with
  | done hnone => exact .done (hdegrees.deadEnds_eq ▸ hnone)
  | @round g h n hsome _ ih =>
    have hrest := ih (hg.removeNodes _) (hdegrees.removeNodes hg _)
    rw [← hdegrees.deadEnds_eq] at hsome hrest ⊢
    exact .round hsome hrest

/-! ## Normalizing -/

section Normalizing

variable [Words]

theorem runOn_normalizeUpTo_succ (g : Circuit) (n : Nat) : (normalizeUpTo (n + 1)).runOn g =
    match pass.runOn g with
    | (.error fault, h) => (.error fault, h)
    | (.ok false, h) => (.ok 0, h)
    | (.ok true, h) =>
      (((normalizeUpTo n).runOn h).1.map (· + 1), ((normalizeUpTo n).runOn h).2) := by
  rw [normalizeUpTo, Edit.runOn_bind]
  cases pass.runOn g with
  | mk answer h =>
    cases answer with
    | error fault => rfl
    | ok changed =>
      cases changed with
      | false => rfl
      | true =>
        dsimp only
        rw [if_pos rfl, Edit.runOn_bind]
        cases (normalizeUpTo n).runOn h with
        | mk answer h' => cases answer <;> rfl

/-- On diagrams that store nodes under their own ids the last pass has changed nothing. -/
theorem normalizeFully_eq (hg : g.Stored) : normalizeFully g =
    match pass.runOn g with
    | (.error fault, h) => (.error fault, h)
    | (.ok false, h) => (.ok 0, h)
    | (.ok true, h) => ((normalizeFully h).1.map (· + 1), (normalizeFully h).2) := by
  rw [normalizeFully]
  cases hpass : pass.runOn g with
  | mk answer h =>
    cases answer with
    | error fault => rfl
    | ok changed =>
      cases changed with
      | false => rfl
      | true => exact if_pos (simpler_of_pass hg hpass)

theorem stored_of_pass {answer : Except Fault Bool} (hg : g.Stored)
    (hrun : pass.runOn g = (answer, h)) : h.Stored := by
  have hstays := staysStored_pass g hg
  rwa [hrun] at hstays

/-- What holds of a circuit if it holds of the one after a pass that changed something, holds of all
    circuits that store nodes under their own ids. -/
@[elab_as_elim]
theorem stored_induction {P : Circuit → Prop} (hg : g.Stored)
    (hstep : ∀ g : Circuit, g.Stored → (∀ h, pass.runOn g = (.ok true, h) → P h) → P g) :
    P g := by
  induction g using Simpler.wellFounded.induction with
  | h g ih =>
    exact hstep g hg fun h hpass => ih h (simpler_of_pass hg hpass) (stored_of_pass hg hpass)

/-- The loop that normalizes ends, with what `Circuit.normalizeFully` computes. -/
theorem normalizesTo_of_stored (hg : g.Stored) :
    NormalizesTo g (normalizeFully g).1 (normalizeFully g).2 := by
  refine stored_induction hg fun g hg ih => ?_
  rw [normalizeFully_eq hg]
  cases hpass : pass.runOn g with
  | mk answer h =>
    cases answer with
    | error fault => exact .refused hpass
    | ok changed =>
      cases changed with
      | false => exact .done hpass
      | true => exact .more hpass (ih h hpass)

/-- **From some number of passes on** it makes no difference how many are allowed. -/
theorem exists_normalizeUpTo (hg : g.Stored) :
    ∃ n, ∀ m, n ≤ m → (normalizeUpTo m).runOn g = (normalize none).runOn g := by
  refine stored_induction hg fun g hg ih => ?_
  have hloop : (normalize none).runOn g = normalizeFully g := rfl
  rw [hloop, normalizeFully_eq hg]
  cases hpass : pass.runOn g with
  | mk answer h =>
    cases answer with
    | error fault =>
      refine ⟨1, fun m hm => ?_⟩
      obtain ⟨m, rfl⟩ := Nat.exists_eq_add_of_le' hm
      rw [runOn_normalizeUpTo_succ, hpass]
    | ok changed =>
      cases changed with
      | false =>
        refine ⟨1, fun m hm => ?_⟩
        obtain ⟨m, rfl⟩ := Nat.exists_eq_add_of_le' hm
        rw [runOn_normalizeUpTo_succ, hpass]
      | true =>
        obtain ⟨n, hn⟩ := ih h hpass
        refine ⟨n + 1, fun m hm => ?_⟩
        obtain ⟨m, rfl⟩ := Nat.exists_eq_add_one_of_ne_zero (Nat.ne_of_gt (Nat.zero_lt_of_lt hm))
        rw [runOn_normalizeUpTo_succ, hpass]
        dsimp only
        rw [hn m (Nat.le_of_succ_le_succ hm)]
        rfl

/-- **Passes that have ended by themselves** are those that are run without a limit. -/
theorem runOn_normalize_of_lt {p : Nat} (hg : g.Stored)
    (hanswer : ((normalizeUpTo n).runOn g).1 = .ok p) (hlt : p < n) :
    (normalize none).runOn g = (normalizeUpTo n).runOn g := by
  show normalizeFully g = _
  induction n generalizing g p with
  | zero => cases hlt
  | succ n ih =>
    rw [runOn_normalizeUpTo_succ] at hanswer ⊢
    rw [normalizeFully_eq hg]
    cases hpass : pass.runOn g with
    | mk answer h =>
      cases answer with
      | error fault => rfl
      | ok changed =>
        cases changed with
        | false => rfl
        | true =>
          rw [hpass] at hanswer
          dsimp only at hanswer ⊢
          cases hrest : ((normalizeUpTo n).runOn h).1 with
          | error fault =>
            rw [hrest] at hanswer
            cases hanswer
          | ok rest =>
            rw [hrest] at hanswer
            obtain rfl : rest + 1 = p := Except.ok.inj hanswer
            rw [ih (stored_of_pass hg hpass) hrest (Nat.lt_of_succ_lt_succ hlt), hrest]

theorem evaluate_of_lt {p : Nat} (hg : g.Stored)
    (hanswer : ((normalizeUpTo n).runOn g).1 = .ok p) (hlt : p < n) :
    evaluate g = evaluateWithin (some n) g := by
  rw [evaluate, evaluateWithin, runOn_normalize_of_lt hg hanswer hlt]
  rfl

end Normalizing

/-! ## The end -/

/-- **Rewriting terminates in whatever order** its steps are taken, and so do the loops that prune
    and normalize, on any circuit that stores nodes under their own ids. Nothing is asked of edges,
    of terminals, of cycles or of the arity of gates, nor of the size of words. -/
theorem rewriting_terminates [Words] (hg : g.Stored) :
    (¬∃ run : Nat → Circuit, run 0 = g ∧ ∀ n, Step (run n) (run (n + 1))) ∧
      PrunesTo g g.prune.1 g.prune.2 ∧
      NormalizesTo g ((normalize none).runOn g).1 ((normalize none).runOn g).2 := by
  refine ⟨?_, prunesTo_of_stored hg, normalizesTo_of_stored hg⟩
  rintro ⟨run, -, hsteps⟩
  have : IsWellFounded Circuit Simpler := ⟨Simpler.wellFounded⟩
  obtain ⟨n, hn⟩ := WellFounded.not_rel_apply_succ (r := Simpler) run
  exact hn (hsteps n).simpler

section Machine

open scoped Machine

/-- A true constant feeds an exclusive disjunction on two cycles, and a negation on one of them has
    two arguments. -/
def tangle : Circuit :=
  Diagram.ofNodes [] []
    [.ofEdges 0 (.const true) [] [(1, 1)],
      .ofEdges 1 .xor [(0, 1), (1, 1), (2, 1)] [(1, 1), (2, 2)],
      .ofEdges 2 .not [(1, 2)] [(1, 1)]]

theorem rewriting_terminates_tangle : Diagram.Stored tangle ∧
    ¬∃ run : Nat → Circuit, run 0 = tangle ∧ ∀ n, Step (run n) (run (n + 1)) := by
  have hg : Diagram.Stored tangle := by decide +kernel
  exact ⟨hg, (rewriting_terminates hg).1⟩

end Machine

end Circuit

end Wiring
