import Wiring.Proofs.Diagram.Mutations
import Wiring.Proofs.Diagram.Validity

/-!
# New edges in well-formed diagrams

Before edges are put into a diagram it is checked that none leaves an output and none enters an
input. That keeps the nodes consistent, and the bare side of every terminal bare. It does not keep
the terminals in their arity: an input has a child already, and a second one is not refused, nor is
a second parent of an output. These are the only ways in which new edges spoil a diagram.

Nothing is asked of the counts, so that what is said here holds of diagrams read from outside too.

## Main definitions

- `Diagram.AllowsEdge` — what is checked of the ends of a new edge
- `Edit.Wires` — how an edit that puts edges into a diagram ends

## Main statements

- `Diagram.Sealed.joinAll`, `Diagram.Sealed.place` — what the checks are enough for
- `Diagram.isWellFormed_joinAll_iff`, `Diagram.isWellFormed_attach_iff` — and what they are not
- `Diagram.new_edges_in_well_formed` — the three edits that add edges
-/

namespace Wiring

open scoped Unlimited

namespace Diagram

variable {α : Type} {g h : Diagram α} {i j o s t m : Nat} {label : α} {ps cs : List Nat}
  {es : List (Nat × Nat)}

/-- **What is checked of a new edge** from `s` to `t`: both are nodes, it does not leave an output,
    and it does not enter an input. -/
def AllowsEdge (g : Diagram α) (s t : Nat) : Prop :=
  g.contains s = true ∧ g.contains t = true ∧ s ∉ g.outputs ∧ t ∉ g.inputs

instance (g : Diagram α) (s t : Nat) : Decidable (g.AllowsEdge s t) :=
  inferInstanceAs (Decidable (_ ∧ _ ∧ _ ∧ _))

/-! ## What stays sealed -/

theorem Sealed.join (hg : g.Sealed) (hs : g.contains s = true) (ht : g.contains t = true)
    (m : Nat) : (g.join s t m).Sealed where
  stored k n hn := by
    rw [node?_join] at hn
    obtain ⟨old, hold, rfl⟩ := Option.map_eq_some_iff.1 hn
    have hid := hg.stored k old hold
    dsimp only
    split <;> split <;> exact hid
  child k n c hn hc := by
    rw [node?_join] at hn
    obtain ⟨old, hold, rfl⟩ := Option.map_eq_some_iff.1 hn
    have hc : c ∈ old.children.keys ∨ c = t := by
      dsimp only at hc
      split at hc <;> split at hc
      · exact Tally.mem_keys_of_mem_keys_add hc
      · exact .inl hc
      · exact Tally.mem_keys_of_mem_keys_add hc
      · exact .inl hc
    rw [contains_join]
    rcases hc with hc | rfl
    · exact hg.child k old c hold hc
    · exact ht
  parent k n p hn hp := by
    rw [node?_join] at hn
    obtain ⟨old, hold, rfl⟩ := Option.map_eq_some_iff.1 hn
    have hp : p ∈ old.parents.keys ∨ p = s := by
      dsimp only at hp
      split at hp <;> split at hp
      · exact Tally.mem_keys_of_mem_keys_add hp
      · exact Tally.mem_keys_of_mem_keys_add hp
      · exact .inl hp
      · exact .inl hp
    rw [contains_join]
    rcases hp with hp | rfl
    · exact hg.parent k old p hold hp
    · exact hs
  agree := agree_join hg.agree hs ht m

theorem Sealed.joinAll (hg : g.Sealed)
    (hes : ∀ e ∈ es, g.contains e.1 = true ∧ g.contains e.2 = true) : (g.joinAll es).Sealed :=
  joinAll_induction Sealed (fun _ _ _ hs ht hg => hg.join hs ht 1) hes hg

/-- A new node lists no neighbours. -/
theorem Sealed.place (hg : g.Sealed) (hnew : g.contains g.nextId = false) :
    (g.place label).Sealed where
  stored k n hn := by
    rw [node?_place] at hn
    split at hn
    · cases hn
      exact Eq.symm ‹_›
    · exact hg.stored k n hn
  child k n c hn hc := by
    rw [node?_place] at hn
    split at hn
    · cases hn
      cases hc
    · rw [contains_place, hg.child k n c hn hc, Bool.true_or]
  parent k n p hn hp := by
    rw [node?_place] at hn
    split at hn
    · cases hn
      cases hp
    · rw [contains_place, hg.parent k n p hn hp, Bool.true_or]
  agree := agree_place hg.agree hnew

/-! ## What stays well formed -/

theorem length_below_of_inputOk (hi : g.inputOk i = true) : (g.below i).length = 1 := by
  obtain ⟨n, hn⟩ := contains_iff.1 (contains_of_inputOk hi)
  rw [inputOk, hn] at hi
  rw [below_of_node? hn]
  exact Tally.length_spread_of_single? (Bool.and_eq_true_iff.1 hi).2

theorem length_above_of_outputOk (ho : g.outputOk .strict o = true) :
    (g.above o).length = 1 := by
  obtain ⟨n, hn⟩ := contains_iff.1 (contains_of_outputOk ho)
  rw [outputOk, hn] at ho
  rw [above_of_node? hn]
  have hone := (Bool.and_eq_true_iff.1 ho).2
  rw [Bool.or_eq_true] at hone
  rcases hone with hone | hone
  · exact Tally.length_spread_of_single? hone
  · exact absurd (Bool.and_eq_true_iff.1 hone).1 (by decide)

/-- A node that no new edge touches is the same as before. -/
theorem node?_joinAll_of_not_mem (hs : ∀ e ∈ es, e.1 ≠ j) (ht : ∀ e ∈ es, e.2 ≠ j) :
    (g.joinAll es).node? j = g.node? j := by
  induction es generalizing g with
  | nil => rfl
  | cons e es ih =>
    obtain ⟨hse, hs⟩ := List.forall_mem_cons.1 hs
    obtain ⟨hte, ht⟩ := List.forall_mem_cons.1 ht
    rw [joinAll_cons, ih hs ht, node?_join]
    simp [Ne.symm hse, Ne.symm hte]

/-- The node of an input, with its edge out, has one more for every new edge out of it. -/
theorem not_inputOk_joinAll {e : Nat × Nat} (hi : g.inputOk i = true) (he : e ∈ es)
    (hei : e.1 = i) : (g.joinAll es).inputOk i ≠ true := by
  intro hnew
  have hlen := (below_joinAll es (contains_of_inputOk hi)).length_eq
  rw [length_below_of_inputOk hnew, List.length_append, length_below_of_inputOk hi,
    List.length_map] at hlen
  have hmem : e ∈ es.filter (·.1 == i) := List.mem_filter.2 ⟨he, beq_iff_eq.2 hei⟩
  have hpos := List.length_pos_of_mem hmem
  omega

theorem not_outputOk_joinAll {e : Nat × Nat} (ho : g.outputOk .strict o = true) (he : e ∈ es)
    (heo : e.2 = o) : (g.joinAll es).outputOk .strict o ≠ true := by
  intro hnew
  have hlen := (above_joinAll es (contains_of_outputOk ho)).length_eq
  rw [length_above_of_outputOk hnew, List.length_append, length_above_of_outputOk ho,
    List.length_map] at hlen
  have hmem : e ∈ es.filter (·.2 == o) := List.mem_filter.2 ⟨he, beq_iff_eq.2 heo⟩
  have hpos := List.length_pos_of_mem hmem
  omega

/-- **Allowed edges spoil a well-formed diagram** exactly if one leaves an input or enters an
    output. -/
theorem isWellFormed_joinAll_iff (hg : g.isWellFormed = true)
    (hes : ∀ e ∈ es, g.AllowsEdge e.1 e.2) : (g.joinAll es).isWellFormed = true ↔
    ∀ e ∈ es, e.1 ∉ g.inputs ∧ e.2 ∉ g.outputs := by
  obtain ⟨hin, hout, hsealed⟩ := isWellFormed_iff_sealed.1 hg
  rw [isWellFormed_iff_sealed, inputs_joinAll, outputs_joinAll]
  constructor
  · rintro ⟨hin', hout', -⟩ e he
    exact ⟨fun hi => not_inputOk_joinAll (hin _ hi) he rfl (hin' _ hi),
      fun ho => not_outputOk_joinAll (hout _ ho) he rfl (hout' _ ho)⟩
  · intro hfree
    -- no new edge touches a terminal, be it on its bare side or on the other
    refine ⟨fun i hi => ?_, fun o ho => ?_,
      hsealed.joinAll fun e he => ⟨(hes e he).1, (hes e he).2.1⟩⟩
    · rw [inputOk, node?_joinAll_of_not_mem (fun e he heq => (hfree e he).1 (heq ▸ hi))
        fun e he heq => (hes e he).2.2.2 (heq ▸ hi)]
      exact hin i hi
    · rw [outputOk, node?_joinAll_of_not_mem (fun e he heq => (hes e he).2.2.1 (heq ▸ ho))
        fun e he heq => (hfree e he).2 (heq ▸ ho)]
      exact hout o ho

/-- A new node without edges spoils nothing, as long as its id is new. -/
theorem isWellFormed_place (hg : g.isWellFormed = true) (hnew : g.contains g.nextId = false) :
    (g.place label).isWellFormed = true := by
  obtain ⟨hin, hout, hsealed⟩ := isWellFormed_iff_sealed.1 hg
  have hold {k : Nat} (hk : g.contains k = true) : (g.place label).node? k = g.node? k := by
    rw [node?_place, if_neg]
    rintro rfl
    rw [hnew] at hk
    cases hk
  refine isWellFormed_iff_sealed.2 ⟨fun i hi => ?_, fun o ho => ?_, hsealed.place hnew⟩
  · rw [inputOk, hold (contains_of_inputOk (hin i hi))]
    exact hin i hi
  · rw [outputOk, hold (contains_of_outputOk (hout o ho))]
    exact hout o ho

/-- The edges of a new node. -/
theorem attach_eq_joinAll : g.attach label ps cs =
    (g.place label).joinAll (ps.map (·, g.nextId) ++ cs.map (g.nextId, ·)) := by
  rw [attach_eq, joinAll, joinAll, joinAll, List.foldl_append]

/-- **A new node spoils a well-formed diagram** exactly if it gets an input for a parent or an
    output for a child. -/
theorem isWellFormed_attach_iff (hg : g.isWellFormed = true)
    (hnew : g.contains g.nextId = false) (hhosts : g.Hosts ps cs) :
    (g.attach label ps cs).isWellFormed = true ↔
      (∀ p ∈ ps, p ∉ g.inputs) ∧ ∀ c ∈ cs, c ∉ g.outputs := by
  obtain ⟨hin, hout, -⟩ := isWellFormed_iff_sealed.1 hg
  have hold {k : Nat} (hk : g.contains k = true) : (g.place label).contains k = true := by
    rw [contains_place, hk, Bool.true_or]
  have hself : (g.place label).contains g.nextId = true := by
    rw [contains_place, beq_self_eq_true, Bool.or_true]
  have hnin : g.nextId ∉ g.inputs := fun hi => by
    rw [contains_of_inputOk (hin _ hi)] at hnew
    cases hnew
  have hnout : g.nextId ∉ g.outputs := fun ho => by
    rw [contains_of_outputOk (hout _ ho)] at hnew
    cases hnew
  rw [attach_eq_joinAll, isWellFormed_joinAll_iff (isWellFormed_place hg hnew),
    List.forall_mem_append, List.forall_mem_map, List.forall_mem_map]
  · constructor
    · rintro ⟨hps, hcs⟩
      exact ⟨fun p hp => (hps p hp).1, fun c hc => (hcs c hc).2⟩
    · rintro ⟨hps, hcs⟩
      exact ⟨fun p hp => ⟨hps p hp, hnout⟩, fun c hc => ⟨hnin, hcs c hc⟩⟩
  · rw [List.forall_mem_append, List.forall_mem_map, List.forall_mem_map]
    exact ⟨fun p hp => ⟨hold (hhosts.parent p hp).1, hself, (hhosts.parent p hp).2, hnin⟩,
      fun c hc => ⟨hself, hold (hhosts.child c hc).1, hnout, (hhosts.child c hc).2⟩⟩

end Diagram

/-! ## The edits -/

/-- **How an edit ends that puts edges into `g`**, with the listed sources and targets. If the edges
    are allowed it answers, and what it leaves is well formed exactly if none of them leaves an
    input and none enters an output. Otherwise it is refused, and leaves `g`. -/
structure Edit.Wires [Words] {α β : Type} (e : Edit α β) (g : Diagram α) (allowed : Prop)
    (sources targets : List Nat) : Prop where
  answered : allowed → ∃ b h, e.runOn g = (.ok b, h) ∧
    (h.isWellFormed = true ↔ (∀ s ∈ sources, s ∉ g.inputs) ∧ ∀ t ∈ targets, t ∉ g.outputs)
  refused : ¬allowed → ∃ fault, e.runOn g = (.error fault, g)

/-- An edit within words that does the same as without a limit. -/
theorem Edit.Wires.within [Words] {α β : Type} {e e' : Edit α β} {g : Diagram α} {allowed : Prop}
    {sources targets : List Nat}
    (hwires : letI := Unlimited.words; e'.Wires g allowed sources targets)
    (hrun : e.runOn g = e'.runOn g) (hheld : (e'.runOn g).2.Held) :
    e.Wires g allowed sources targets where
  answered h := by
    obtain ⟨b, left, hleft, hiff⟩ := letI := Unlimited.words; hwires.answered h
    rw [hleft] at hrun hheld
    exact ⟨b, left, hrun, by rw [hheld.degrees.isWellFormed_eq, hiff]⟩
  refused hnot := by
    obtain ⟨fault, hfault⟩ := letI := Unlimited.words; hwires.refused hnot
    exact ⟨fault, hrun.trans hfault⟩

namespace Diagram

variable {α : Type} {g : Diagram α}

theorem wires_addNode (hg : g.isWellFormed = true) (hnew : g.contains g.nextId = false)
    (label : α) (ps cs : List Nat) :
    (Edit.addNode label ps cs).Wires g (g.Hosts ps cs) ps cs where
  answered hhosts := ⟨_, _, Edit.runOn_addNode hhosts, isWellFormed_attach_iff hg hnew hhosts⟩
  refused hnot := Edit.runOn_addNode_of_not_hosts label hnot

/-- Edges that are checked and then added, one or many. -/
theorem wires_joinAll (hg : g.isWellFormed = true) {es : List (Nat × Nat)} {allowed : Prop}
    {check : Diagram α → Except Fault Unit} (hcheck : check g = .ok () ↔ allowed)
    (hallowed : allowed ↔ ∀ e ∈ es, g.AllowsEdge e.1 e.2) :
    (Edit.ask check >>= fun _ => Edit.change (·.joinAll es)).Wires g allowed
      (es.map (·.1)) (es.map (·.2)) where
  answered h := by
    rw [Edit.runOn_ask_bind, hcheck.2 h]
    refine ⟨(), _, rfl, (isWellFormed_joinAll_iff hg (hallowed.1 h)).trans ?_⟩
    rw [List.forall_mem_map, List.forall_mem_map, ← forall₂_and]
  refused hnot := by
    rw [Edit.runOn_ask_bind]
    cases hverdict : check g with
    | ok _ => exact absurd (hcheck.1 hverdict) hnot
    | error fault => exact ⟨fault, rfl⟩

theorem wires_addEdge (hg : g.isWellFormed = true) (s t : Nat) :
    (Edit.addEdge s t).Wires g (g.AllowsEdge s t) [s] [t] := by
  have hone : g.AllowsEdge s t ↔ ∀ e ∈ [(s, t)], g.AllowsEdge e.1 e.2 := by
    rw [List.forall_mem_singleton]
  exact wires_joinAll hg checkEdge_eq_ok_iff hone

theorem wires_addEdges (hg : g.isWellFormed = true) (es : List (Nat × Nat)) :
    (Edit.addEdges es).Wires g (∀ e ∈ es, g.AllowsEdge e.1 e.2) (es.map (·.1)) (es.map (·.2)) := by
  refine wires_joinAll hg (checkEdges_eq_ok_iff.trans ?_) Iff.rfl
  exact forall₂_congr fun e _ => checkEdge_eq_ok_iff

/-- **What new edges do to a well-formed diagram** that gives out unused ids. A new node, a new edge
    and any number of them are refused, and then nothing has changed, unless all ends are nodes,
    no edge leaves an output and none enters an input. Otherwise they are added, and the diagram
    is well formed afterwards exactly if no edge leaves an input and none enters an output, which
    nothing checks. Words have to hold the degrees, and the next id, of what is left. -/
theorem new_edges_in_well_formed [Words] (hg : g.isWellFormed = true) (hids : g.IdsBelow)
    (hdegrees : g.DegreesHold) :
    (∀ label ps cs, (letI _ := Unlimited.words; (Edit.addNode label ps cs).runOn g).2.Held →
      (Edit.addNode label ps cs).Wires g (g.Hosts ps cs) ps cs) ∧
    (∀ s t, (letI _ := Unlimited.words; (Edit.addEdge s t).runOn g).2.Held →
      (Edit.addEdge s t).Wires g (g.AllowsEdge s t) [s] [t]) ∧
    ∀ es, (letI _ := Unlimited.words; (Edit.addEdges es).runOn g).2.Held →
      (Edit.addEdges es).Wires g (∀ e ∈ es, g.AllowsEdge e.1 e.2) (es.map (·.1))
        (es.map (·.2)) := by
  rw [hdegrees.isWellFormed_eq] at hg
  have hnew := hids.not_contains (Nat.le_refl _)
  exact ⟨fun label ps cs hheld =>
      .within (wires_addNode hg hnew label ps cs) (Edit.runOn_addNode_eq hheld) hheld,
    fun s t hheld => .within (wires_addEdge hg s t) (Edit.runOn_addEdge_eq hheld) hheld,
    fun es hheld => .within (wires_addEdges hg es) (Edit.runOn_addEdges_eq hheld) hheld⟩

section Machine

open scoped Machine

/-- A wire beside a node: the node may get a parent and a child, but not the input for a parent. -/
theorem new_edges_in_well_formed_branching :
    let g : Diagram Nat := (identity 1).attach 7 [] []
    g.isWellFormed = true ∧ g.IdsBelow ∧ g.DegreesHold ∧
      (∃ h, (Edit.addEdges [(2, 2), (2, 2)]).runOn g = (.ok (), h) ∧ h.isWellFormed = true) ∧
      (∃ h, (Edit.addEdge 0 2).runOn g = (.ok (), h) ∧ h.isWellFormed = false) ∧
      ∃ fault, (Edit.addNode 8 [0, 1] [2]).runOn g = (.error fault, g) := by
  intro g
  have hg : g.isWellFormed = true := by decide +kernel
  have hids : g.IdsBelow := by decide +kernel
  have hdegrees : g.DegreesHold := by decide +kernel
  obtain ⟨hnode, hedge, hedges⟩ := new_edges_in_well_formed hg hids hdegrees
  refine ⟨hg, hids, hdegrees, ?_, ?_, ?_⟩
  · obtain ⟨_, h, hrun, hiff⟩ :=
      (hedges [(2, 2), (2, 2)] (by decide +kernel)).answered (by decide +kernel)
    exact ⟨h, hrun, hiff.2 (by decide +kernel)⟩
  · obtain ⟨_, h, hrun, hiff⟩ := (hedge 0 2 (by decide +kernel)).answered (by decide +kernel)
    refine ⟨h, hrun, Bool.eq_false_iff.2 fun hwf => ?_⟩
    exact (hiff.1 hwf).1 0 List.mem_cons_self (by decide +kernel)
  · exact (hnode 8 [0, 1] [2] (by decide +kernel)).refused fun hhosts =>
      (hhosts.parent 1 (by decide)).2 (by decide +kernel)

end Machine

end Diagram

end Wiring
