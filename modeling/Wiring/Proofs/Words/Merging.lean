import Wiring.Proofs.Diagram.Merging
import Wiring.Proofs.Words.Room

/-!
# Merging within words

Merging two nodes forgets one neighbour and adds up the counts of all others, which therefore never
go down. As long as words hold the degrees afterwards, they have held every count on the way.

## Main definitions

- `Diagram.Grows` — no count has gone down, apart from those of one neighbour

## Main statements

- `Diagram.merge_eq_of_degreesHold` — merging with words that hold the degrees afterwards
- `Diagram.degreesHold_merge` — which they do if they hold those of the two nodes taken together
- `Edit.runOn_merge_eq`, `Edit.runOn_mergeTakingLabel_eq` — the edits
-/

namespace Wiring

namespace Diagram

variable {α : Type} {g h : Diagram α} {a b s t m : Nat}

/-- `h` counts no less than `g` does, apart from edges from and to `b`. -/
def Grows (b : Nat) (g h : Diagram α) : Prop :=
  ∀ u v, (v ≠ b → (g.below u).count v ≤ (h.below u).count v) ∧
    (u ≠ b → (g.above v).count u ≤ (h.above v).count u)

namespace Grows

theorem refl (b : Nat) (g : Diagram α) : Grows b g g := fun _ _ =>
  ⟨fun _ => Nat.le_refl _, fun _ => Nat.le_refl _⟩

theorem trans {g' : Diagram α} (h₁ : Grows b g g') (h₂ : Grows b g' h) : Grows b g h :=
  fun u v => ⟨fun hv => ((h₁ u v).1 hv).trans ((h₂ u v).1 hv),
    fun hu => ((h₁ u v).2 hu).trans ((h₂ u v).2 hu)⟩

theorem join (b s t m : Nat) (g : Diagram α) :
    Grows b g (letI _ := Unlimited.words; g.join s t m) := fun u v => by
  rw [below_join.count_eq, above_join.count_eq, List.count_append, List.count_append]
  exact ⟨fun _ => Nat.le_add_right _ _, fun _ => Nat.le_add_right _ _⟩

/-- A change of one node that takes no occurrences but those of `b` from its lists. -/
theorem updateNode (f : Node α → Node α)
    (hf : ∀ n k, k ≠ b → (f n).parents.count k = n.parents.count k ∧
      (f n).children.count k = n.children.count k) (i : Nat) (g : Diagram α) :
    Grows b g (g.updateNode i f) := by
  intro u v
  simp only [below, above, node?_updateNode]
  constructor
  · intro hv
    split
    · rename_i hu
      rw [hu]
      cases g.node? i with
      | none => exact Nat.le_refl _
      | some n =>
        simp only [Option.map_some, Option.elim_some, Tally.count_spread, (hf n v hv).2]
        exact Nat.le_refl _
    · exact Nat.le_refl _
  · intro hu
    split
    · rename_i hv
      rw [hv]
      cases g.node? i with
      | none => exact Nat.le_refl _
      | some n =>
        simp only [Option.map_some, Option.elim_some, Tally.count_spread, (hf n u hu).1]
        exact Nat.le_refl _
    · exact Nat.le_refl _

theorem eraseChild (b i : Nat) (g : Diagram α) :
    Grows b g (g.updateNode i (·.eraseChild b)) :=
  updateNode (·.eraseChild b)
    (fun n k hk => ⟨rfl, by simp only [Node.eraseChild, Tally.count_erase, if_neg hk]⟩) i g

theorem eraseParent (b i : Nat) (g : Diagram α) :
    Grows b g (g.updateNode i (·.eraseParent b)) :=
  updateNode (·.eraseParent b)
    (fun n k hk => ⟨by simp only [Node.eraseParent, Tally.count_erase, if_neg hk], rfl⟩) i g

theorem foldl {β : Type} {step : Diagram α → β → Diagram α}
    (hstep : ∀ g x, Grows b g (step g x)) (l : List β) (g : Diagram α) :
    Grows b g (l.foldl step g) := by
  induction l generalizing g with
  | nil => exact refl b g
  | cons x l ih => exact (hstep g x).trans (ih (step g x))

end Grows

variable [Words]

/-- Words hold what is counted, apart from edges from and to `b`. -/
def CountsHold (b : Nat) (g : Diagram α) : Prop :=
  ∀ u v, (v ≠ b → Words.Holds ((g.below u).count v)) ∧
    (u ≠ b → Words.Holds ((g.above v).count u))

theorem CountsHold.of_grows (hh : CountsHold b h) (hgrows : Grows b g h) : CountsHold b g :=
  fun u v => ⟨fun hv => ((hh u v).1 hv).mono ((hgrows u v).1 hv),
    fun hu => ((hh u v).2 hu).mono ((hgrows u v).2 hu)⟩

theorem DegreesHold.countsHold (h : g.DegreesHold) (b : Nat) : CountsHold b g := fun u v =>
  ⟨fun _ => (h.holds u).2.mono List.count_le_length,
    fun _ => (h.holds v).1.mono List.count_le_length⟩

theorem CountsHold.join_eq
    (h : CountsHold b (letI _ := Unlimited.words; g.join s t m)) (hs : s ≠ b) (ht : t ≠ b) :
    g.join s t m = letI := Unlimited.words; g.join s t m :=
  Diagram.join_eq ((h s t).1 ht) ((h s t).2 hs)

/-- If no step lets counts go down, and every step is taken as it is where words hold the counts
    after it, then so is the whole loop where they hold the counts at its end. -/
theorem CountsHold.foldl_eq {β : Type} {step step' : Diagram α → β → Diagram α} {l : List β}
    (hgrows : ∀ g x, Grows b g (step' g x))
    (hstep : ∀ g x, CountsHold b (step' g x) → step g x = step' g x)
    (h : CountsHold b (l.foldl step' g)) : l.foldl step g = l.foldl step' g := by
  induction l generalizing g with
  | nil => rfl
  | cons x l ih =>
    rw [List.foldl_cons, List.foldl_cons,
      hstep g x (h.of_grows (Grows.foldl hgrows l (step' g x)))]
    exact ih h

/-- **Merging within words**: it is as without a limit, if words hold the degrees afterwards. -/
theorem merge_eq_of_degreesHold (hab : a ≠ b)
    (hdegrees : (letI _ := Unlimited.words; g.merge a b : Diagram α).DegreesHold) :
    g.merge a b = letI := Unlimited.words; g.merge a b := by
  cases hn : g.node? b with
  | none => simp only [merge, hn]
  | some n =>
    -- degrees could exceed those at the end, but no count does that is not about the node that goes
    have hheld := hdegrees.countsHold b
    simp only [merge, if_neg hab, hn] at hheld ⊢
    have hparents (g : Diagram α) (e : Nat × Nat) : Grows b g (letI _ := Unlimited.words;
        if e.1 = b then g.join a a e.2
        else (g.updateNode e.1 (·.eraseChild b)).join e.1 a e.2) := by
      split
      · exact .join b a a e.2 g
      · exact (Grows.eraseChild b e.1 g).trans (.join b e.1 a e.2 _)
    have hchildren (g : Diagram α) (e : Nat × Nat) : Grows b g (letI _ := Unlimited.words;
        if e.1 = b then g else (g.updateNode e.1 (·.eraseParent b)).join a e.1 e.2) := by
      split
      · exact .refl b g
      · exact (Grows.eraseParent b e.1 g).trans (.join b a e.1 e.2 _)
    have hfirst : adoptParents { g with nodes := g.nodes.erase b } a b n.parents =
        letI := Unlimited.words
        adoptParents { g with nodes := g.nodes.erase b } a b n.parents := by
      refine CountsHold.foldl_eq hparents (fun g e he => ?_)
        (CountsHold.of_grows hheld (Grows.foldl hchildren n.children.entries _))
      split
      · rw [if_pos ‹_›] at he
        exact he.join_eq hab hab
      · rw [if_neg ‹_›] at he
        exact he.join_eq ‹_› hab
    have hsecond (g : Diagram α)
        (hg : CountsHold b (letI _ := Unlimited.words; g.adoptChildren a b n.children)) :
        g.adoptChildren a b n.children =
          letI := Unlimited.words; g.adoptChildren a b n.children := by
      refine CountsHold.foldl_eq hchildren (fun g e he => ?_) hg
      split
      · rfl
      · rw [if_neg ‹_›] at he
        exact he.join_eq hab ‹_›
    rw [hfirst, hsecond _ hheld]

section Merge

variable (hdegrees : g.DegreesHold)
  (hsums : Words.Holds ((g.above a).length + (g.above b).length) ∧
    Words.Holds ((g.below a).length + (g.below b).length))
include hdegrees hsums

theorem degreesHold_merge (hg : g.Coherent) (hab : a ≠ b) (hb : g.contains b = true) :
    (letI _ := Unlimited.words; g.merge a b : Diagram α).DegreesHold := fun k hk => by
  rw [mem_ids, contains_merge hab hb, Bool.and_eq_true, bne_iff_ne] at hk
  rw [length_above_merge hg hab hb hk.1 hk.2, length_below_merge hg hab hb hk.1 hk.2]
  split
  · exact hsums
  · exact hdegrees.holds k

theorem merge_eq_of_holds (hg : g.Coherent) (hab : a ≠ b) (hb : g.contains b = true) :
    g.merge a b = letI := Unlimited.words; g.merge a b :=
  merge_eq_of_degreesHold hab (degreesHold_merge hdegrees hsums hg hab hb)

theorem checkMerge_eq : g.checkMerge a b = letI := Unlimited.words; g.checkMerge a b := by
  unfold checkMerge
  cases ha : g.find a with
  | error fault => rfl
  | ok nodeA =>
    cases hb : g.find b with
    | error fault => rfl
    | ok nodeB =>
      rw [find_eq_ok_iff] at ha hb
      have hA := IdMap.mem_values_iff.2 ⟨a, ha⟩
      have hB := IdMap.mem_values_iff.2 ⟨b, hb⟩
      rw [length_above_of_node? ha, length_above_of_node? hb, length_below_of_node? ha,
        length_below_of_node? hb] at hsums
      have hin : g.checkMergeInputs a b nodeA nodeB =
          letI := Unlimited.words; g.checkMergeInputs a b nodeA nodeB := by
        unfold checkMergeInputs
        rw [hdegrees.indegree_eq hA, hdegrees.indegree_eq hB, hdegrees.outdegree_eq hA,
          hdegrees.outdegree_eq hB, Words.wrap_of_holds hsums.2]
        rfl
      have hout : g.checkMergeOutputs a b nodeA nodeB =
          letI := Unlimited.words; g.checkMergeOutputs a b nodeA nodeB := by
        unfold checkMergeOutputs
        rw [hdegrees.indegree_eq hA, hdegrees.indegree_eq hB, hdegrees.outdegree_eq hA,
          hdegrees.outdegree_eq hB, Words.wrap_of_holds hsums.1]
        rfl
      show (if a = b then .ok () else do
        g.checkMergeInputs a b nodeA nodeB
        g.checkMergeOutputs a b nodeA nodeB) = _
      rw [hin, hout]
      rfl

end Merge

end Diagram

namespace Edit

open Diagram

variable [Words] {α : Type} {g : Diagram α} {a b : Nat} (hdegrees : g.DegreesHold)
  (hsums : Words.Holds ((g.above a).length + (g.above b).length) ∧
    Words.Holds ((g.below a).length + (g.below b).length))
include hdegrees hsums

/-- **The edit within words.** It is refused as without a limit, and else merges so. -/
theorem runOn_merge_eq (hg : g.Coherent) (hab : a ≠ b) :
    (merge a b).runOn g = letI := Unlimited.words; (merge a b).runOn g := by
  simp only [merge, runOn_ask_bind, checkMerge_eq hdegrees hsums]
  cases hcheck : (letI _ := Unlimited.words; g.checkMerge a b) with
  | error fault => rfl
  | ok _ =>
    have hb := letI := Unlimited.words; contains_of_checkMerge hcheck
    simp only [runOn_change, merge_eq_of_holds hdegrees hsums hg hab hb]

theorem runOn_mergeTakingLabel_eq (hg : g.Coherent) (hab : a ≠ b) :
    (mergeTakingLabel a b).runOn g = letI := Unlimited.words; (mergeTakingLabel a b).runOn g := by
  simp only [mergeTakingLabel, runOn_ask_bind, checkMerge_eq hdegrees hsums]
  cases hcheck : (letI _ := Unlimited.words; g.checkMerge a b) with
  | error fault => rfl
  | ok _ =>
    have hb := letI := Unlimited.words; contains_of_checkMerge hcheck
    simp only [runOn_change, Diagram.mergeTakingLabel, merge_eq_of_holds hdegrees hsums hg hab hb]

end Edit

end Wiring
