import Wiring.Diagram.Terminals
import Wiring.Proofs.Diagram.Adjacency
import Wiring.Proofs.Words.Composition
import Wiring.Proofs.Words.Merging

/-!
# Calls within words

Whether a call reckons within words can be told from what it would leave without a limit: counts go
up on the way and not down, so that nothing has wrapped around if words hold the degrees and the
next id in the end. Only merging looks at sums that need not turn up in what it leaves, and raising
ids clear of another diagram at the ids of that one.

## Main definitions

- `Diagram.Held` — words hold a diagram, that is, its next id and its degrees

## Main statements

- `Diagram.joinAll_eq_of_degreesHold`, `Diagram.ofAdjacency_eq` — edges one by one, and matrices
- `Diagram.attach_eq_of_held`, `Diagram.Orderly.apartFrom_eq` — new nodes and raised ids
- `Diagram.Orderly.besideAll_eq`, `Diagram.Orderly.glue_eq` — composition
- `Edit.runOn_addNode_eq`, `Edit.runOn_addEdges_eq`, `Edit.runOn_glue_eq` — edits
- `Edit.runOn_markInput_eq`, `Edit.runOn_addInputAt_eq` — and terminals
-/

namespace Wiring

namespace Diagram

variable [Words] {α : Type} {f g h : Diagram α} {a b d i j s t m : Nat} {label : α}
  {ps cs : List Nat} {es : List (Nat × Nat)}

/-- **Words hold the diagram**: its next id and its degrees. -/
structure Held (g : Diagram α) : Prop where
  nextId : Words.Holds g.nextId
  degrees : g.DegreesHold

instance (g : Diagram α) : Decidable g.Held :=
  decidable_of_iff (Words.Holds g.nextId ∧ g.DegreesHold)
    ⟨fun ⟨hnext, hdegrees⟩ => ⟨hnext, hdegrees⟩, fun h => ⟨h.nextId, h.degrees⟩⟩

omit [Words] in
theorem held_unlimited (g : Diagram α) : @Held Unlimited.words α g :=
  @Held.mk Unlimited.words _ _ (Words.holds_unlimited _)
    fun _ _ => ⟨Words.holds_unlimited _, Words.holds_unlimited _⟩

/-! ## Edges -/

omit [Words] in
theorem Grows.joinAll (b : Nat) (es : List (Nat × Nat)) (g : Diagram α) :
    Grows b g (letI _ := Unlimited.words; g.joinAll es) := by
  induction es generalizing g with
  | nil => exact refl b g
  | cons e es ih =>
    rw [@joinAll_cons _ _ Unlimited.words]
    exact (Grows.join b e.1 e.2 1 g).trans (ih _)

/-- Edges are joined as they are, if words hold the counts of what comes of it later on. -/
theorem join_eq_of_grows (hh : ∀ b, CountsHold b h)
    (hgrows : ∀ b, Grows b (letI _ := Unlimited.words; g.join s t m) h) :
    g.join s t m = letI := Unlimited.words; g.join s t m := by
  have hcounts := (hh (s + t + 1)).of_grows (hgrows _)
  exact hcounts.join_eq (by omega) (by omega)

theorem joinAll_eq_of_degreesHold
    (hheld : (letI _ := Unlimited.words; g.joinAll es : Diagram α).DegreesHold) :
    g.joinAll es = letI := Unlimited.words; g.joinAll es := by
  induction es generalizing g with
  | nil => rw [joinAll_nil, @joinAll_nil _ Unlimited.words]
  | cons e es ih =>
    rw [@joinAll_cons _ _ Unlimited.words] at hheld ⊢
    rw [joinAll_cons, join_eq_of_grows hheld.countsHold fun b => Grows.joinAll b es _]
    exact ih hheld

/-! ### Matrices -/

section Matrices

variable {row : List Nat} {rows : List (List Nat)}

omit [Words] in
theorem Grows.joinRow (b i j : Nat) (row : List Nat) (g : Diagram α) :
    Grows b g (letI _ := Unlimited.words; g.joinRow i j row) := by
  rw [joinRow_eq_joinAll]
  exact .joinAll b _ g

omit [Words] in
theorem Grows.joinRows (b i : Nat) (rows : List (List Nat)) (g : Diagram α) :
    Grows b g (letI _ := Unlimited.words; g.joinRows i rows) := by
  rw [joinRows_eq_joinAll]
  exact .joinAll b _ g

theorem joinRow_eq_of_grows (hh : ∀ b, CountsHold b h)
    (hgrows : ∀ b, Grows b (letI _ := Unlimited.words; g.joinRow i j row) h) :
    g.joinRow i j row = letI := Unlimited.words; g.joinRow i j row := by
  induction row generalizing g j with
  | nil => rfl
  | cons m row ih =>
    show (g.join i j m).joinRow i (j + 1) row = _
    rw [join_eq_of_grows hh fun b => (Grows.joinRow b i (j + 1) row _).trans (hgrows b)]
    exact ih hgrows

theorem joinRows_eq_of_countsHold
    (hheld : ∀ b, CountsHold b (letI _ := Unlimited.words; g.joinRows i rows)) :
    g.joinRows i rows = letI := Unlimited.words; g.joinRows i rows := by
  induction rows generalizing g i with
  | nil => rfl
  | cons row rows ih =>
    show (g.joinRow i 0 row).joinRows (i + 1) rows = _
    rw [joinRow_eq_of_grows hheld fun b => Grows.joinRows b (i + 1) rows _]
    exact ih hheld

/-- **The diagram of a matrix**, whose counts words hold. -/
theorem ofAdjacency_eq [Inhabited α]
    (hheld : ∀ g : Diagram α, (letI _ := Unlimited.words; ofAdjacency rows) = .ok g →
      ∀ b, CountsHold b g) :
    (ofAdjacency rows : Except Fault (Diagram α)) =
      letI := Unlimited.words; ofAdjacency rows := by
  unfold ofAdjacency at hheld ⊢
  cases hrow : rows.find? (·.length != rows.length) with
  | some row => rfl
  | none =>
    rw [hrow] at hheld
    dsimp only
    rw [joinRows_eq_of_countsHold (hheld _ rfl)]

end Matrices

/-! ## Nodes -/

omit [Words] in
/-- One list of edges after the other, whatever the words. -/
theorem joinAll_joinAll [Words] (g : Diagram α) (es es' : List (Nat × Nat)) :
    (g.joinAll es).joinAll es' = g.joinAll (es ++ es') := List.foldl_append.symm

theorem attach_eq_of_held
    (hheld : (letI _ := Unlimited.words; g.attach label ps cs : Diagram α).Held) :
    g.attach label ps cs = letI := Unlimited.words; g.attach label ps cs := by
  have hnext := hheld.nextId
  have hdegrees := hheld.degrees
  rw [nextId_attach] at hnext
  rw [attach_eq, @joinAll_joinAll _ Unlimited.words] at hdegrees
  rw [Roomy.attach_eq_place hnext, joinAll_joinAll, joinAll_eq_of_degreesHold hdegrees, attach_eq,
    @joinAll_joinAll _ Unlimited.words]

/-! ## Raised ids -/

omit [Words] in
theorem Orderly.selfContained (hg : g.Orderly) : g.SelfContained := hg.fitted.selfContained

omit [Words] in
theorem Orderly.span_le (hg : g.Orderly) : g.span ≤ g.nextId :=
  hg.selfContained.span_le_iff.2 ⟨Nat.le_refl _, hg.idsBelow⟩

theorem Orderly.shift_eq (hg : g.Orderly) (hnext : Words.Holds (g.nextId + d)) :
    g.shift d = letI := Unlimited.words; g.shift d :=
  Diagram.shift_eq (hnext.mono (Nat.add_le_add_right hg.span_le d))

/-- **A diagram is raised clear of another**, if words hold the span of that one and the next id
    afterwards. -/
theorem Orderly.apartFrom_eq (hg : g.Orderly) (hspan : Words.Holds h.span)
    (hraised : Words.Holds (letI _ := Unlimited.words; g.apartFrom h).nextId) :
    g.apartFrom h = letI := Unlimited.words; g.apartFrom h := by
  have hunfold [Words] (g : Diagram α) : g.apartFrom h = g.shift (g.clearance h) := rfl
  rw [@hunfold Unlimited.words, nextId_shift] at hraised
  rw [hunfold, @hunfold Unlimited.words, clearance_eq hspan, hg.shift_eq hraised]

/-! ## Composition -/

theorem Orderly.beside_eq (hf : f.Orderly) (hg : g.Orderly)
    (hheld : Words.Holds (letI _ := Unlimited.words; f.beside g).nextId) :
    f.beside g = letI := Unlimited.words; f.beside g := by
  have hmax : (letI _ := Unlimited.words; f.beside g).nextId =
      max f.nextId (letI _ := Unlimited.words; g.apartFrom f).nextId := rfl
  rw [hmax] at hheld
  unfold Diagram.beside
  rw [hg.apartFrom_eq (hheld.mono (hf.span_le.trans (Nat.le_max_left _ _)))
    (hheld.mono (Nat.le_max_right _ _))]

omit [Words] in
theorem nextId_le_besideAll (f : Diagram α) (gs : List (Diagram α)) :
    f.nextId ≤ (letI _ := Unlimited.words; f.besideAll gs).nextId := by
  induction gs generalizing f with
  | nil => exact Nat.le_refl _
  | cons g gs ih =>
    have hstep : f.nextId ≤ (letI _ := Unlimited.words; f.beside g).nextId := Nat.le_max_left _ _
    exact hstep.trans (ih _)

theorem Orderly.besideAll_eq {gs : List (Diagram α)} (hf : f.Orderly)
    (hgs : ∀ g ∈ gs, g.Orderly)
    (hheld : Words.Holds (letI _ := Unlimited.words; f.besideAll gs).nextId) :
    f.besideAll gs = letI := Unlimited.words; f.besideAll gs := by
  induction gs generalizing f with
  | nil => rfl
  | cons g gs ih =>
    obtain ⟨hg, hgs⟩ := List.forall_mem_cons.1 hgs
    rw [besideAll_cons, hf.beside_eq hg (hheld.mono (nextId_le_besideAll _ gs)),
      ih (hf.beside hg) hgs hheld, ← @besideAll_cons Unlimited.words]

theorem Orderly.glue_eq (hf : f.Orderly) (hdegrees : f.DegreesHold) (hg : g.Orderly)
    (hcheck : f.checkGlue g = .ok ps)
    (hheld : Words.Holds (letI _ := Unlimited.words; f.glue ps g).nextId) :
    f.glue ps g = letI := Unlimited.words; f.glue ps g := by
  rw [Diagram.glue_eq, nextId_weld] at hheld
  refine (hf.fitted.welds hg.fitted hcheck).glue_eq hdegrees (hg.apartFrom_eq ?_ ?_)
  · exact hheld.mono (hf.span_le.trans (Nat.le_max_left _ _))
  · exact hheld.mono (Nat.le_max_right _ _)

/-! ## Checks -/

omit [Words] in
theorem find_bind_congr {β : Type} {e e' : Node α → Except Fault β}
    (he : ∀ n ∈ g.nodes.values, e n = e' n) : (g.find i >>= e) = g.find i >>= e' := by
  cases hi : g.find i with
  | error fault => rfl
  | ok n => exact he n (IdMap.mem_values_iff.2 ⟨i, find_eq_ok_iff.1 hi⟩)

section Checks

variable (hg : g.DegreesHold)
include hg

theorem checkMarkInput_eq : g.checkMarkInput i = letI := Unlimited.words; g.checkMarkInput i :=
  find_bind_congr fun n hn => by rw [hg.indegree_eq hn]

theorem checkMarkOutput_eq :
    g.checkMarkOutput i = letI := Unlimited.words; g.checkMarkOutput i :=
  find_bind_congr fun n hn => by rw [hg.outdegree_eq hn]

theorem checkInputAt_eq : g.checkInputAt i = letI := Unlimited.words; g.checkInputAt i :=
  find_bind_congr fun n hn => by rw [hg.indegree_eq hn]

theorem checkOutputAt_eq : g.checkOutputAt i = letI := Unlimited.words; g.checkOutputAt i :=
  find_bind_congr fun n hn => by rw [hg.outdegree_eq hn]

end Checks

end Diagram

/-! ## Edits -/

namespace Edit

open Diagram

variable [Words] {α : Type} {g h : Diagram α} {a i s t : Nat} {label : α} {ps cs : List Nat}
  {es : List (Nat × Nat)}

theorem runOn_addNode_eq
    (hheld : (letI _ := Unlimited.words; ((addNode label ps cs).runOn g).2).Held) :
    (addNode label ps cs).runOn g = letI := Unlimited.words; (addNode label ps cs).runOn g := by
  unfold addNode at hheld ⊢
  rw [runOn_ask_bind] at hheld
  rw [runOn_ask_bind, runOn_ask_bind]
  cases hcheck : g.checkNeighbours ps cs with
  | ok _ =>
    rw [hcheck] at hheld
    show (Except.ok g.nextId, g.attach label ps cs) = (.ok g.nextId, _)
    rw [attach_eq_of_held hheld]
  | error _ => rfl

/-- A new node that is listed in some way afterwards. -/
theorem runOn_addNode_bind_eq {push : Nat → Diagram α → Diagram α}
    (hpush : ∀ i g, (push i g).Held → g.Held)
    (hheld : (letI _ := Unlimited.words; ((addNode label ps cs >>= fun i =>
      change (push i) >>= fun _ => pure i).runOn g).2).Held) :
    (addNode label ps cs >>= fun i => change (push i) >>= fun _ => pure i).runOn g =
      letI := Unlimited.words; (addNode label ps cs >>= fun i =>
        change (push i) >>= fun _ => pure i).runOn g := by
  refine runOn_bind_congr (runOn_addNode_eq ?_) fun _ _ _ => rfl
  rw [runOn_bind] at hheld
  cases hrun : (letI _ := Unlimited.words; (addNode label ps cs).runOn g) with
  | mk answer h =>
    rw [hrun] at hheld
    cases answer with
    | ok i => exact hpush i h hheld
    | error fault => exact hheld

theorem runOn_addEdge_eq (hheld : (letI _ := Unlimited.words; ((addEdge s t).runOn g).2).Held) :
    (addEdge s t).runOn g = letI := Unlimited.words; (addEdge s t).runOn g := by
  unfold addEdge at hheld ⊢
  rw [runOn_ask_bind] at hheld
  rw [runOn_ask_bind, runOn_ask_bind]
  cases hcheck : g.checkEdge s t with
  | ok _ =>
    rw [hcheck] at hheld
    have hjoin : g.joinAll [(s, t)] = letI := Unlimited.words; g.joinAll [(s, t)] :=
      joinAll_eq_of_degreesHold hheld.degrees
    exact congrArg (Except.ok (), ·) hjoin
  | error _ => rfl

theorem runOn_addEdges_eq (hheld : (letI _ := Unlimited.words; ((addEdges es).runOn g).2).Held) :
    (addEdges es).runOn g = letI := Unlimited.words; (addEdges es).runOn g := by
  unfold addEdges at hheld ⊢
  rw [runOn_ask_bind] at hheld
  rw [runOn_ask_bind, runOn_ask_bind]
  cases hcheck : g.checkEdges es with
  | ok _ =>
    rw [hcheck] at hheld
    exact congrArg (Except.ok (), ·) (joinAll_eq_of_degreesHold hheld.degrees)
  | error _ => rfl

theorem runOn_glue_eq (hg : g.Orderly) (hdegrees : g.DegreesHold) (hh : h.Orderly)
    (hheld : (letI _ := Unlimited.words; ((glue h).runOn g).2).Held) :
    (glue h).runOn g = letI := Unlimited.words; (glue h).runOn g := by
  unfold glue at hheld ⊢
  rw [runOn_ask_bind] at hheld
  rw [runOn_ask_bind, runOn_ask_bind]
  cases hcheck : g.checkGlue h with
  | ok ps =>
    rw [hcheck] at hheld
    exact congrArg (Except.ok (), ·) (hg.glue_eq hdegrees hh hcheck hheld.nextId)
  | error _ => rfl

/-! ### Terminals -/

section Terminals

variable (hg : g.DegreesHold)
include hg

theorem runOn_markInput_eq :
    (markInput i).runOn g = letI := Unlimited.words; (markInput i).runOn g := by
  unfold markInput
  rw [runOn_ask_bind, runOn_ask_bind, checkMarkInput_eq hg]

theorem runOn_markOutput_eq :
    (markOutput i).runOn g = letI := Unlimited.words; (markOutput i).runOn g := by
  unfold markOutput
  rw [runOn_ask_bind, runOn_ask_bind, checkMarkOutput_eq hg]

variable [Inhabited α]

theorem runOn_addInputAt_eq
    (hheld : (letI _ := Unlimited.words; ((addInputAt i).runOn g).2).Held) :
    (addInputAt i).runOn g = letI := Unlimited.words; (addInputAt i).runOn g := by
  unfold addInputAt at hheld ⊢
  rw [runOn_ask_bind] at hheld
  rw [runOn_ask_bind, runOn_ask_bind, checkInputAt_eq hg]
  cases hcheck : (letI _ := Unlimited.words; g.checkInputAt i) with
  | ok _ =>
    rw [hcheck] at hheld
    exact runOn_addNode_bind_eq (fun _ _ hg => ⟨hg.nextId, hg.degrees⟩) hheld
  | error _ => rfl

theorem runOn_addOutputAt_eq
    (hheld : (letI _ := Unlimited.words; ((addOutputAt i).runOn g).2).Held) :
    (addOutputAt i).runOn g = letI := Unlimited.words; (addOutputAt i).runOn g := by
  unfold addOutputAt at hheld ⊢
  rw [runOn_ask_bind] at hheld
  rw [runOn_ask_bind, runOn_ask_bind, checkOutputAt_eq hg]
  cases hcheck : (letI _ := Unlimited.words; g.checkOutputAt i) with
  | ok _ =>
    rw [hcheck] at hheld
    exact runOn_addNode_bind_eq (fun _ _ hg => ⟨hg.nextId, hg.degrees⟩) hheld
  | error _ => rfl

end Terminals

/-! ### One node merged with itself -/

theorem checkMerge_self (g : Diagram α) (a : Nat) :
    g.checkMerge a a = letI := Unlimited.words; g.checkMerge a a := by
  unfold checkMerge
  refine find_bind_congr fun _ _ => find_bind_congr fun _ _ => ?_
  rw [if_pos rfl, if_pos rfl]

theorem runOn_merge_self (g : Diagram α) (a : Nat) :
    (merge a a).runOn g = letI := Unlimited.words; (merge a a).runOn g := by
  unfold merge
  rw [runOn_ask_bind, runOn_ask_bind, checkMerge_self]
  cases (letI _ := Unlimited.words; g.checkMerge a a) with
  | ok _ => simp only [runOn_change, Diagram.merge, if_pos]
  | error _ => rfl

theorem runOn_mergeTakingLabel_self (g : Diagram α) (a : Nat) :
    (mergeTakingLabel a a).runOn g = letI := Unlimited.words; (mergeTakingLabel a a).runOn g := by
  unfold mergeTakingLabel
  rw [runOn_ask_bind, runOn_ask_bind, checkMerge_self]
  cases (letI _ := Unlimited.words; g.checkMerge a a) with
  | ok _ => simp only [runOn_change, Diagram.mergeTakingLabel, Diagram.merge, if_pos]
  | error _ => rfl

end Edit

end Wiring
