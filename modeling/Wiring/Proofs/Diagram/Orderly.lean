import Wiring.Proofs.Diagram.Adjacency
import Wiring.Proofs.Diagram.Dropping
import Wiring.Proofs.Diagram.Gluing
import Wiring.Proofs.Diagram.Merging
import Wiring.Proofs.Diagram.Wires

/-!
# Diagrams in order

What all operations on diagrams keep, if nothing but them has been used. That terminals have a
single edge is not among it: severing takes edges away from terminals, and merging brings edges to
them. What stays is that no edge leads into an input or out of an output.

## Main definitions

- `Diagram.Trim` — coherence, ids below the next one, and no edge on the bare side of a terminal
- `Diagram.Tidy` — the same, with terminals that are nodes
- `Diagram.Orderly` — and with every terminal listed once
- `Diagram.Fitted` — and with nothing said of the next id

## Main statements

- `Diagram.Orderly.joinAll`, `Diagram.Orderly.dropEdge`, `Diagram.Orderly.attach`,
  `Diagram.Orderly.removeNode`, `Diagram.Orderly.merge`, `Diagram.Orderly.shift`,
  `Diagram.Orderly.beside`, `Diagram.Orderly.glue` — what keeps a diagram in order
- `Diagram.Orderly.identity`, `Diagram.Orderly.ofAdjacency` — diagrams that are in order
-/

namespace Wiring

open scoped Unlimited

namespace Diagram

variable {α : Type} {f g h : Diagram α} {a b i j k s t : Nat} {label : α} {ps cs : List Nat}

/-- **A diagram in order**: it is coherent, all ids are below the next one to be given out, and the
    terminals are nodes, each listed once, with edges on one side only. -/
structure Orderly (g : Diagram α) : Prop where
  coherent : g.Coherent
  idsBelow : g.IdsBelow
  nodup_inputs : g.inputs.Nodup
  nodup_outputs : g.outputs.Nodup
  input : ∀ i ∈ g.inputs, g.contains i = true ∧ g.above i = []
  output : ∀ o ∈ g.outputs, g.contains o = true ∧ g.below o = []

/-- **A tidy diagram**: in order, but for terminals that may be listed repeatedly. -/
structure Tidy (g : Diagram α) : Prop where
  coherent : g.Coherent
  idsBelow : g.IdsBelow
  input : ∀ i ∈ g.inputs, g.contains i = true ∧ g.above i = []
  output : ∀ o ∈ g.outputs, g.contains o = true ∧ g.below o = []

/-- **A fitted diagram**: in order, but for the next id, which may be in use. -/
structure Fitted (g : Diagram α) : Prop where
  coherent : g.Coherent
  nodup_inputs : g.inputs.Nodup
  nodup_outputs : g.outputs.Nodup
  input : ∀ i ∈ g.inputs, g.contains i = true ∧ g.above i = []
  output : ∀ o ∈ g.outputs, g.contains o = true ∧ g.below o = []

theorem Orderly.fitted (hg : g.Orderly) : g.Fitted :=
  ⟨hg.coherent, hg.nodup_inputs, hg.nodup_outputs, hg.input, hg.output⟩

theorem Fitted.orderly (hg : g.Fitted) (hids : g.IdsBelow) : g.Orderly :=
  ⟨hg.coherent, hids, hg.nodup_inputs, hg.nodup_outputs, hg.input, hg.output⟩

theorem Orderly.tidy (hg : g.Orderly) : g.Tidy := ⟨hg.coherent, hg.idsBelow, hg.input, hg.output⟩

theorem Tidy.orderly (hg : g.Tidy) (hin : g.inputs.Nodup) (hout : g.outputs.Nodup) : g.Orderly :=
  ⟨hg.coherent, hg.idsBelow, hin, hout, hg.input, hg.output⟩

/-- **A trim diagram**: it is coherent, all ids are below the next one to be given out, those of
    terminals too, and no terminal has an edge on its bare side. A terminal need not be a node. -/
structure Trim (g : Diagram α) : Prop where
  coherent : g.Coherent
  idsBelow : g.IdsBelow
  input : ∀ i ∈ g.inputs, i < g.nextId ∧ g.above i = []
  output : ∀ o ∈ g.outputs, o < g.nextId ∧ g.below o = []

theorem Tidy.trim (hg : g.Tidy) : g.Trim where
  coherent := hg.coherent
  idsBelow := hg.idsBelow
  input i hi := ⟨hg.idsBelow i (hg.input i hi).1, (hg.input i hi).2⟩
  output o ho := ⟨hg.idsBelow o (hg.output o ho).1, (hg.output o ho).2⟩

/-! ## Changes that keep terminals bare on one side -/

namespace Trim

theorem of_same_terminals (hg : g.Trim) (hcoh : h.Coherent) (hids : h.IdsBelow)
    (hnext : g.nextId ≤ h.nextId) (hin : h.inputs = g.inputs) (hout : h.outputs = g.outputs)
    (habove : ∀ i ∈ g.inputs, h.above i = []) (hbelow : ∀ o ∈ g.outputs, h.below o = []) :
    h.Trim where
  coherent := hcoh
  idsBelow := hids
  input i hi := ⟨(hg.input i (hin ▸ hi)).1.trans_le hnext, habove i (hin ▸ hi)⟩
  output o ho := ⟨(hg.output o (hout ▸ ho)).1.trans_le hnext, hbelow o (hout ▸ ho)⟩

/-- A node with a parent is no input. -/
theorem not_mem_inputs (hg : g.Trim) (h : k ∈ g.below j) : k ∉ g.inputs := by
  intro hk
  rw [← hg.coherent.mem_above_iff, (hg.input k hk).2] at h
  cases h

/-- A node with a child is no output. -/
theorem not_mem_outputs (hg : g.Trim) (h : k ∈ g.above j) : k ∉ g.outputs := by
  intro hk
  rw [hg.coherent.mem_above_iff, (hg.output k hk).2] at h
  cases h

theorem relabel (hg : g.Trim) (i : Nat) (label : α) : (g.relabel i label).Trim :=
  hg.of_same_terminals (hg.coherent.relabel i label) (hg.idsBelow.relabel i label)
    (Nat.le_refl _) rfl rfl (fun i hi => above_relabel.trans (hg.input i hi).2)
    (fun o ho => below_relabel.trans (hg.output o ho).2)

theorem severAll (hg : g.Trim) (pairs : List (Nat × Nat)) : (g.severAll pairs).Trim := by
  refine hg.of_same_terminals (hg.coherent.severAll pairs) (hg.idsBelow.severAll pairs)
    (Nat.le_of_eq (nextId_severAll pairs).symm) (inputs_severAll pairs) (outputs_severAll pairs)
    (fun i hi => ?_) (fun o ho => ?_)
  · rw [hg.coherent.above_severAll, (hg.input i hi).2, List.filter_nil]
  · rw [hg.coherent.below_severAll, (hg.output o ho).2, List.filter_nil]

/-- The new node gets the next id, which no terminal has, so that it is no terminal. -/
theorem attach (hg : g.Trim) (hhosts : g.Hosts ps cs) : (g.attach label ps cs).Trim := by
  have hps (p : Nat) (hp : p ∈ ps) := (hhosts.parent p hp).1
  have hcs (c : Nat) (hc : c ∈ cs) := (hhosts.child c hc).1
  have hnew := hg.idsBelow.not_contains (Nat.le_refl _)
  have habsent {k : Nat} (hlt : k < g.nextId) (hc : ¬g.contains k = true) :
      (g.attach label ps cs).contains k = false := by
    rw [contains_attach, Bool.eq_false_iff.2 hc, Bool.false_or, beq_eq_false_iff_ne]
    exact Nat.ne_of_lt hlt
  refine hg.of_same_terminals (hg.coherent.attach hnew hps hcs) hg.idsBelow.attach
    (by rw [nextId_attach]; exact Nat.le_succ _) inputs_attach outputs_attach
    (fun i hi => ?_) (fun o ho => ?_)
  · obtain ⟨hlt, hnil⟩ := hg.input i hi
    by_cases hc : g.contains i = true
    · have hperm := above_attach label ps cs (hg.idsBelow.not_mem hcs) (.inr hc)
      rwa [if_neg (Nat.ne_of_lt hlt), hnil,
        List.count_eq_zero.2 fun hmem => (hhosts.child i hmem).2 hi, List.replicate_zero,
        List.append_nil, List.perm_nil] at hperm
    · exact above_eq_nil (habsent hlt hc)
  · obtain ⟨hlt, hnil⟩ := hg.output o ho
    by_cases hc : g.contains o = true
    · have hperm := below_attach label ps cs (hg.idsBelow.not_mem hps) (.inr hc)
      rwa [if_neg (Nat.ne_of_lt hlt), hnil,
        List.count_eq_zero.2 fun hmem => (hhosts.parent o hmem).2 ho, List.replicate_zero,
        List.append_nil, List.perm_nil] at hperm
    · exact below_eq_nil (habsent hlt hc)

theorem attachAll (hg : g.Trim) {ends : List (List Nat × List Nat)}
    (h : ∀ e ∈ ends, g.Hosts e.1 e.2) : (g.attachAll label ends).Trim := by
  induction ends generalizing g with
  | nil => exact hg
  | cons e ends ih =>
    rw [attachAll_cons]
    refine ih (hg.attach (h e List.mem_cons_self)) fun e' he' => ?_
    exact (h e' (List.mem_cons_of_mem _ he')).attach

theorem removeNode (hg : g.Trim) (i : Nat) : (g.removeNode i).Trim where
  coherent := hg.coherent.removeNode i
  idsBelow := hg.idsBelow.removeNode i
  input j hj := by
    obtain ⟨hlt, hnil⟩ := hg.input j (mem_inputs_removeNode.1 hj).1
    rw [nextId_removeNode, hg.coherent.above_removeNode, hnil, List.filter_nil, ite_self]
    exact ⟨hlt, rfl⟩
  output j hj := by
    obtain ⟨hlt, hnil⟩ := hg.output j (mem_outputs_removeNode.1 hj).1
    rw [nextId_removeNode, hg.coherent.below_removeNode, hnil, List.filter_nil, ite_self]
    exact ⟨hlt, rfl⟩

theorem removeNodes (hg : g.Trim) (ids : List Nat) : (g.removeNodes ids).Trim := by
  induction ids generalizing g with
  | nil => exact hg
  | cons i ids ih => exact ih (hg.removeNode i)

end Trim

/-! ## Changes that keep the terminals -/

namespace Tidy

/-- No terminal may lose its node, and none may get an edge on its bare side. -/
theorem of_same_terminals (hg : g.Tidy) (hcoh : h.Coherent) (hids : h.IdsBelow)
    (hc : ∀ k, g.contains k = true → h.contains k = true) (hin : h.inputs = g.inputs)
    (hout : h.outputs = g.outputs) (habove : ∀ i ∈ g.inputs, h.above i = [])
    (hbelow : ∀ o ∈ g.outputs, h.below o = []) : h.Tidy where
  coherent := hcoh
  idsBelow := hids
  input i hi := ⟨hc i (hg.input i (hin ▸ hi)).1, habove i (hin ▸ hi)⟩
  output o ho := ⟨hc o (hg.output o (hout ▸ ho)).1, hbelow o (hout ▸ ho)⟩

/-- A trim diagram with the terminals of a tidy one is tidy, if no node has gone. -/
theorem of_trim (hg : g.Tidy) (hh : h.Trim) (hc : ∀ k, g.contains k = true → h.contains k = true)
    (hin : h.inputs = g.inputs) (hout : h.outputs = g.outputs) : h.Tidy :=
  hg.of_same_terminals hh.coherent hh.idsBelow hc hin hout
    (fun i hi => (hh.input i (hin ▸ hi)).2) fun o ho => (hh.output o (hout ▸ ho)).2

theorem relabel (hg : g.Tidy) (i : Nat) (label : α) : (g.relabel i label).Tidy :=
  hg.of_trim (hg.trim.relabel i label) (fun _ hk => by rwa [contains_relabel]) rfl rfl

theorem severAll (hg : g.Tidy) (pairs : List (Nat × Nat)) : (g.severAll pairs).Tidy :=
  hg.of_trim (hg.trim.severAll pairs) (fun k hk => by rwa [contains_severAll])
    (inputs_severAll pairs) (outputs_severAll pairs)

theorem attach (hg : g.Tidy) (hhosts : g.Hosts ps cs) : (g.attach label ps cs).Tidy :=
  hg.of_trim (hg.trim.attach hhosts) (fun k hk => by rw [contains_attach, hk, Bool.true_or])
    inputs_attach outputs_attach

theorem removeNode (hg : g.Tidy) (i : Nat) : (g.removeNode i).Tidy where
  coherent := hg.coherent.removeNode i
  idsBelow := hg.idsBelow.removeNode i
  input j hj := by
    obtain ⟨hin, hne⟩ := mem_inputs_removeNode.1 hj
    have hc := (hg.input j hin).1
    exact ⟨contains_removeNode_iff.2 ⟨hc, fun heq => hne (heq ▸ hc) heq⟩,
      ((hg.trim.removeNode i).input j hj).2⟩
  output j hj := by
    obtain ⟨hout, hne⟩ := mem_outputs_removeNode.1 hj
    have hc := (hg.output j hout).1
    exact ⟨contains_removeNode_iff.2 ⟨hc, fun heq => hne (heq ▸ hc) heq⟩,
      ((hg.trim.removeNode i).output j hj).2⟩

theorem removeNodes (hg : g.Tidy) (ids : List Nat) : (g.removeNodes ids).Tidy := by
  induction ids generalizing g with
  | nil => exact hg
  | cons i ids ih => exact ih (hg.removeNode i)

end Tidy

namespace Orderly

/-- No terminal may lose its node, and none may get an edge on its bare side. -/
theorem of_same_terminals (hg : g.Orderly) (hcoh : h.Coherent) (hids : h.IdsBelow)
    (hc : ∀ k, g.contains k = true → h.contains k = true) (hin : h.inputs = g.inputs)
    (hout : h.outputs = g.outputs) (habove : ∀ i ∈ g.inputs, h.above i = [])
    (hbelow : ∀ o ∈ g.outputs, h.below o = []) : h.Orderly :=
  (hg.tidy.of_same_terminals hcoh hids hc hin hout habove hbelow).orderly
    (hin ▸ hg.nodup_inputs) (hout ▸ hg.nodup_outputs)

theorem empty : (Diagram.empty : Diagram α).Orderly where
  coherent := ⟨fun _ _ hn => (nomatch hn), fun _ _ hn => (nomatch hn), fun _ _ => rfl⟩
  idsBelow _ hk := nomatch hk
  nodup_inputs := .nil
  nodup_outputs := .nil
  input _ hi := nomatch hi
  output _ ho := nomatch ho

theorem relabel (hg : g.Orderly) (i : Nat) (label : α) : (g.relabel i label).Orderly :=
  (hg.tidy.relabel i label).orderly hg.nodup_inputs hg.nodup_outputs

/-- Edges may join any nodes, as long as none leaves an output or enters an input. -/
theorem joinAll (hg : g.Orderly) {es : List (Nat × Nat)}
    (hes : ∀ e ∈ es, g.checkEdge e.1 e.2 = .ok ()) : (g.joinAll es).Orderly := by
  simp only [checkEdge_eq_ok_iff] at hes
  refine hg.of_same_terminals (hg.coherent.joinAll fun e he => ⟨(hes e he).1, (hes e he).2.1⟩)
    (fun k hk => ?_) (fun k hk => ?_) (inputs_joinAll es) (outputs_joinAll es) (fun i hi => ?_)
    (fun o ho => ?_)
  · rw [contains_joinAll] at hk
    rw [nextId_joinAll]
    exact hg.idsBelow k hk
  · rwa [contains_joinAll]
  · have hperm := above_joinAll es (hg.input i hi).1
    have hnone : es.filter (·.2 == i) = [] := List.filter_eq_nil_iff.2 fun e he heq =>
      (hes e he).2.2.2 (by rwa [eq_of_beq heq])
    rwa [(hg.input i hi).2, hnone, List.map_nil, List.append_nil, List.perm_nil] at hperm
  · have hperm := below_joinAll es (hg.output o ho).1
    have hnone : es.filter (·.1 == o) = [] := List.filter_eq_nil_iff.2 fun e he heq =>
      (hes e he).2.2.1 (by rwa [eq_of_beq heq])
    rwa [(hg.output o ho).2, hnone, List.map_nil, List.append_nil, List.perm_nil] at hperm

theorem dropEdge (hg : g.Orderly) (s t : Nat) : (g.dropEdge s t).Orderly := by
  refine hg.of_same_terminals (hg.coherent.dropEdge s t) (fun k hk => ?_) (fun k hk => ?_)
    inputs_dropEdge outputs_dropEdge (fun i hi => ?_) (fun o ho => ?_)
  · rw [contains_dropEdge] at hk
    rw [nextId_dropEdge]
    exact hg.idsBelow k hk
  · rwa [contains_dropEdge]
  · refine List.eq_nil_iff_forall_not_mem.2 fun p hp => ?_
    have := mem_above_of_dropEdge hp
    rw [(hg.input i hi).2] at this
    cases this
  · refine List.eq_nil_iff_forall_not_mem.2 fun c hc => ?_
    have := mem_below_of_dropEdge hc
    rw [(hg.output o ho).2] at this
    cases this

theorem severAll (hg : g.Orderly) (pairs : List (Nat × Nat)) : (g.severAll pairs).Orderly := by
  refine (hg.tidy.severAll pairs).orderly ?_ ?_
  · rw [inputs_severAll]
    exact hg.nodup_inputs
  · rw [outputs_severAll]
    exact hg.nodup_outputs

theorem attach (hg : g.Orderly) (hhosts : g.Hosts ps cs) : (g.attach label ps cs).Orderly := by
  refine (hg.tidy.attach hhosts).orderly ?_ ?_
  · rw [inputs_attach]
    exact hg.nodup_inputs
  · rw [outputs_attach]
    exact hg.nodup_outputs

/-! ## Changes of terminals -/

theorem removeNode (hg : g.Orderly) (i : Nat) : (g.removeNode i).Orderly := by
  refine (hg.tidy.removeNode i).orderly ?_ ?_
  · rw [inputs_removeNode_eq]
    split
    · exact hg.nodup_inputs.filter _
    · exact hg.nodup_inputs
  · rw [outputs_removeNode_eq]
    split
    · exact hg.nodup_outputs.filter _
    · exact hg.nodup_outputs

theorem removeNodes (hg : g.Orderly) (ids : List Nat) : (g.removeNodes ids).Orderly := by
  induction ids generalizing g with
  | nil => exact hg
  | cons i ids ih => exact ih (hg.removeNode i)

theorem pushInput (hg : g.Orderly) (hi : i ∉ g.inputs) (hc : g.contains i = true)
    (hnil : g.above i = []) : (g.pushInput i).Orderly where
  coherent := ⟨hg.coherent.id_eq, hg.coherent.positive, hg.coherent.agree⟩
  idsBelow := hg.idsBelow
  nodup_inputs := List.nodup_append_comm.1 (List.nodup_cons.2 ⟨hi, hg.nodup_inputs⟩)
  nodup_outputs := hg.nodup_outputs
  input j hj := by
    rcases List.mem_append.1 hj with hj | hj
    · exact hg.input j hj
    · obtain rfl := List.mem_singleton.1 hj
      exact ⟨hc, hnil⟩
  output := hg.output

theorem pushOutput (hg : g.Orderly) (hi : i ∉ g.outputs) (hc : g.contains i = true)
    (hnil : g.below i = []) : (g.pushOutput i).Orderly where
  coherent := ⟨hg.coherent.id_eq, hg.coherent.positive, hg.coherent.agree⟩
  idsBelow := hg.idsBelow
  nodup_inputs := hg.nodup_inputs
  nodup_outputs := List.nodup_append_comm.1 (List.nodup_cons.2 ⟨hi, hg.nodup_outputs⟩)
  input := hg.input
  output j hj := by
    rcases List.mem_append.1 hj with hj | hj
    · exact hg.output j hj
    · obtain rfl := List.mem_singleton.1 hj
      exact ⟨hc, hnil⟩

/-- A fresh terminal is a node that is none yet. -/
theorem nextId_not_mem_inputs (hg : g.Orderly) : g.nextId ∉ g.inputs := fun hmem =>
  absurd (hg.idsBelow _ (hg.input _ hmem).1) (Nat.lt_irrefl _)

theorem nextId_not_mem_outputs (hg : g.Orderly) : g.nextId ∉ g.outputs := fun hmem =>
  absurd (hg.idsBelow _ (hg.output _ hmem).1) (Nat.lt_irrefl _)

theorem attach_pushInput (hg : g.Orderly) (hhosts : g.Hosts [] cs) :
    ((g.attach label [] cs).pushInput g.nextId).Orderly := by
  have hperm := above_attach (g := g) label [] cs
    (hg.idsBelow.not_mem fun c hc => (hhosts.child c hc).1) (.inl rfl)
  rw [if_pos rfl, List.perm_nil] at hperm
  refine (hg.attach hhosts).pushInput ?_ (by simp [contains_attach]) hperm
  rw [inputs_attach]
  exact hg.nextId_not_mem_inputs

theorem attach_pushOutput (hg : g.Orderly) (hhosts : g.Hosts ps []) :
    ((g.attach label ps []).pushOutput g.nextId).Orderly := by
  have hperm := below_attach (g := g) label ps []
    (hg.idsBelow.not_mem fun p hp => (hhosts.parent p hp).1) (.inl rfl)
  rw [if_pos rfl, List.perm_nil] at hperm
  refine (hg.attach hhosts).pushOutput ?_ (by simp [contains_attach]) hperm
  rw [outputs_attach]
  exact hg.nextId_not_mem_outputs

/-! ## Merging -/

end Orderly

/-- A list in which at most one of `a` and `b` is listed keeps different elements apart. -/
theorem nodup_map_retarget {l : List Nat} (hl : l.Nodup) (hnot : ¬(a ∈ l ∧ b ∈ l)) :
    (l.map (retarget a b)).Nodup := by
  refine hl.map_on ?_
  intro x hx y hy hxy
  unfold retarget at hxy
  split at hxy
  · split at hxy
    · simp only [*]
    · exact absurd ⟨hxy ▸ hy, ‹x = b› ▸ hx⟩ hnot
  · split at hxy
    · exact absurd ⟨hxy ▸ hx, ‹y = b› ▸ hy⟩ hnot
    · exact hxy

/-- Where the ports of a merged diagram come from: `a` is a port if one of the two was. -/
theorem of_mem_map_retarget {l : List Nat} (hk : k ∈ l.map (retarget a b)) :
    (k = a ∧ (a ∈ l ∨ b ∈ l)) ∨ (k ≠ a ∧ k ≠ b ∧ k ∈ l) := by
  obtain ⟨x, hx, rfl⟩ := List.mem_map.1 hk
  unfold retarget
  by_cases hxb : x = b
  · rw [if_pos hxb]
    exact .inl ⟨rfl, .inr (hxb ▸ hx)⟩
  · rw [if_neg hxb]
    by_cases hxa : x = a
    · exact .inl ⟨hxa, .inl (hxa ▸ hx)⟩
    · exact .inr ⟨hxa, hxb, hx⟩

namespace Orderly

theorem merge (hg : g.Orderly) (hcheck : g.checkMerge a b = .ok ()) : (g.merge a b).Orderly := by
  by_cases hab : a = b
  · rwa [Diagram.merge, if_pos hab]
  obtain ⟨ha, hb, hin, hout⟩ := keepsPorts_of_checkMerge hcheck hab
  have hcontains {k : Nat} (hk : g.contains k = true) (hkb : k ≠ b) :
      (g.merge a b).contains k = true := by
    rw [contains_merge hab hb, hk]
    simpa using hkb
  refine ⟨hg.coherent.merge hab ha hb, hg.idsBelow.merge hab hb, ?_, ?_, fun i hi => ?_,
    fun o ho => ?_⟩
  · rw [inputs_merge hab hb]
    exact nodup_map_retarget hg.nodup_inputs fun h => (hin (.inl h.1)).2.2 h
  · rw [outputs_merge hab hb]
    exact nodup_map_retarget hg.nodup_outputs fun h => (hout (.inl h.1)).2.2 h
  · rw [inputs_merge hab hb] at hi
    obtain ⟨rfl, hport⟩ | ⟨hia, hib, hmem⟩ := of_mem_map_retarget hi
    · have hperm := above_merge hg.coherent hab hb ha hab
      rw [if_pos rfl, (hin hport).1, (hin hport).2.1] at hperm
      exact ⟨hcontains ha hab, List.perm_nil.1 hperm⟩
    · have hperm := above_merge hg.coherent hab hb (hg.input i hmem).1 hib
      rw [if_neg hia, (hg.input i hmem).2] at hperm
      exact ⟨hcontains (hg.input i hmem).1 hib, List.perm_nil.1 hperm⟩
  · rw [outputs_merge hab hb] at ho
    obtain ⟨rfl, hport⟩ | ⟨hoa, hob, hmem⟩ := of_mem_map_retarget ho
    · have hperm := below_merge hg.coherent hab hb ha hab
      rw [if_pos rfl, (hout hport).1, (hout hport).2.1] at hperm
      exact ⟨hcontains ha hab, List.perm_nil.1 hperm⟩
    · have hperm := below_merge hg.coherent hab hb (hg.output o hmem).1 hob
      rw [if_neg hoa, (hg.output o hmem).2] at hperm
      exact ⟨hcontains (hg.output o hmem).1 hob, List.perm_nil.1 hperm⟩

theorem mergeTakingLabel (hg : g.Orderly) (hcheck : g.checkMerge a b = .ok ()) :
    (g.mergeTakingLabel a b).Orderly := by
  unfold Diagram.mergeTakingLabel
  split
  · exact hg
  · exact (hg.merge hcheck).relabel a _

/-! ## Renumbering and uniting -/

end Orderly

theorem Fitted.shift (hg : g.Fitted) (d : Nat) : (g.shift d).Fitted := by
  have hid := hg.coherent.id_eq
  have hinj : Function.Injective (· + d) := fun _ _ heq => Nat.add_right_cancel heq
  refine ⟨hg.coherent.shift d, ?_, ?_, fun i hi => ?_, fun o ho => ?_⟩
  · rw [inputs_shift]
    exact hg.nodup_inputs.map hinj
  · rw [outputs_shift]
    exact hg.nodup_outputs.map hinj
  · rw [inputs_shift] at hi
    obtain ⟨k, hk, rfl⟩ := List.mem_map.1 hi
    obtain ⟨hc, hnil⟩ := hg.input k hk
    rw [contains_shift hid, above_shift hid, hnil]
    exact ⟨hc, rfl⟩
  · rw [outputs_shift] at ho
    obtain ⟨k, hk, rfl⟩ := List.mem_map.1 ho
    obtain ⟨hc, hnil⟩ := hg.output k hk
    rw [contains_shift hid, below_shift hid, hnil]
    exact ⟨hc, rfl⟩

namespace Orderly

theorem shift (hg : g.Orderly) (d : Nat) : (g.shift d).Orderly :=
  (hg.fitted.shift d).orderly (hg.idsBelow.shift hg.coherent d)

theorem apartFrom (hg : g.Orderly) (h : Diagram α) : (g.apartFrom h).Orderly := hg.shift _

end Orderly

theorem Beside.fitted {u : Diagram α} (hu : Beside f g u) (hf : f.Fitted) (hg : g.Fitted) :
    u.Fitted where
  coherent := hu.coherent hf.coherent hg.coherent
  nodup_inputs := hu.inputs ▸ hu.nodup_append hf.nodup_inputs hg.nodup_inputs
    (fun k hk => (hf.input k hk).1) fun k hk => (hg.input k hk).1
  nodup_outputs := hu.outputs ▸ hu.nodup_append hf.nodup_outputs hg.nodup_outputs
    (fun k hk => (hf.output k hk).1) fun k hk => (hg.output k hk).1
  input i hi := by
    rw [hu.inputs] at hi
    rcases List.mem_append.1 hi with hi | hi
    · obtain ⟨hc, hnil⟩ := hf.input i hi
      exact ⟨hu.contains_iff.2 (.inl hc), by rw [hu.above_left hc, hnil]⟩
    · obtain ⟨hc, hnil⟩ := hg.input i hi
      exact ⟨hu.contains_iff.2 (.inr hc), by rw [hu.symm.above_left hc, hnil]⟩
  output o ho := by
    rw [hu.outputs] at ho
    rcases List.mem_append.1 ho with ho | ho
    · obtain ⟨hc, hnil⟩ := hf.output o ho
      exact ⟨hu.contains_iff.2 (.inl hc), by rw [hu.below_left hc, hnil]⟩
    · obtain ⟨hc, hnil⟩ := hg.output o ho
      exact ⟨hu.contains_iff.2 (.inr hc), by rw [hu.symm.below_left hc, hnil]⟩

theorem Beside.orderly {u : Diagram α} (hu : Beside f g u) (hf : f.Orderly) (hg : g.Orderly) :
    u.Orderly :=
  (hu.fitted hf.fitted hg.fitted).orderly (hu.idsBelow hf.idsBelow hg.idsBelow)

theorem beside_beside (hid : ∀ k n, g.node? k = some n → n.id = k) :
    Beside f (g.apartFrom f) (f.beside g) where
  nodes := rfl
  apart _ hk := not_contains_apartFrom hid hk
  inputs := rfl
  outputs := rfl
  nextId_left := Nat.le_max_left _ _
  nextId_right := Nat.le_max_right _ _

namespace Orderly

theorem beside (hf : f.Orderly) (hg : g.Orderly) : (f.beside g).Orderly :=
  (beside_beside hg.coherent.id_eq).orderly hf (hg.apartFrom f)

end Orderly

/-! ## Gluing -/

/-- Nodes that were found to feed outputs are their only parents. -/
theorem above_of_feeder {o p : Nat} (hpos : f.Positive) (h : f.feeder o = .ok p) :
    f.above o = [p] := by
  rw [feeder, bind_eq_ok_iff] at h
  obtain ⟨n, hn, hp⟩ := h
  rw [find_eq_ok_iff] at hn
  split at hp
  · cases hp
    rwa [above_of_node? hn, ← (hpos o n hn).1.single?_eq_some_iff]
  · cases hp

theorem feed_of_checkGlue (hpos : f.Positive) (h : f.checkGlue g = .ok ps) :
    f.outputs.map f.above = ps.map ([·]) ∧ ps.length = g.inputs.length := by
  unfold checkGlue at h
  split at h
  · rename_i hlen
    have hall := forall₂_of_mapM_eq_ok h
    refine ⟨?_, hall.length_eq.symm.trans hlen⟩
    rw [← List.forall₂_eq_eq_eq, List.forall₂_map_left_iff, List.forall₂_map_right_iff]
    exact hall.imp fun _ _ hp => above_of_feeder hpos hp
  · cases h

theorem Fitted.welds (hf : f.Fitted) (hg : g.Fitted) (h : f.checkGlue g = .ok ps) :
    Welds f ps (g.apartFrom f) where
  left := hf.coherent
  right := (hg.shift _).coherent
  apart _ hk := not_contains_apartFrom hg.coherent.id_eq hk
  inputs_left i hi := (hf.input i hi).2
  inputs_right := (hg.shift _).input
  outputs_left o ho := (hf.output o ho).2
  nodup_inputs := (hg.shift _).nodup_inputs
  nodup_outputs := hf.nodup_outputs
  feed := (feed_of_checkGlue hf.coherent.positive h).1
  length_eq := by
    rw [(feed_of_checkGlue hf.coherent.positive h).2, Diagram.apartFrom, inputs_shift,
      List.length_map]

theorem Fitted.glue (hf : f.Fitted) (hg : g.Fitted) (h : f.checkGlue g = .ok ps) :
    (f.glue ps g).Fitted := by
  have hw := hf.welds hg h
  have hg' : (g.apartFrom f).Fitted := hg.shift _
  rw [glue_eq]
  refine ⟨hw.coherent, ?_, hg'.nodup_outputs, fun i hi => ?_, fun o ho => ?_⟩
  · rw [hw.inputs_weld]
    exact hf.nodup_inputs
  · rw [hw.inputs_weld] at hi
    obtain ⟨hc, hnil⟩ := hf.input i hi
    -- an input has no parents, so it is none of the outputs that go
    have hout : i ∉ f.outputs := fun ho => by
      have hmem : f.above i ∈ ps.map ([·]) := hw.feed ▸ List.mem_map_of_mem ho
      obtain ⟨p, -, hp⟩ := List.mem_map.1 hmem
      rw [hnil] at hp
      cases hp
    exact ⟨hw.contains_weld.2 (.inl ⟨hc, hout⟩), List.perm_nil.1 (hnil ▸ hw.above_left hc hout)⟩
  · obtain ⟨hc, hnil⟩ := hg'.output o ho
    exact ⟨hw.contains_weld.2 (.inr hc), List.perm_nil.1 (hnil ▸ hw.below_right hc)⟩

theorem Orderly.glue (hf : f.Orderly) (hg : g.Orderly) (h : f.checkGlue g = .ok ps) :
    (f.glue ps g).Orderly := by
  have hw := hf.fitted.welds hg.fitted h
  exact (hf.fitted.glue hg.fitted h).orderly (hw.idsBelow hf.idsBelow (hg.apartFrom f).idsBelow)

/-! ## Diagrams that are in order -/

section Default

variable [Inhabited α]

theorem orderly_wire (i : Nat) : (wire i : Diagram α).Orderly where
  coherent := coherent_wire i
  idsBelow := idsBelow_wire i
  nodup_inputs := List.nodup_singleton _
  nodup_outputs := List.nodup_singleton _
  input j hj := by
    obtain rfl : j = i := List.mem_singleton.1 hj
    exact ⟨contains_wire.2 (.inl rfl), by rw [above_wire, if_neg (by omega)]⟩
  output j hj := by
    obtain rfl : j = i + 1 := List.mem_singleton.1 hj
    exact ⟨contains_wire.2 (.inr rfl), by rw [below_wire, if_neg (by omega)]⟩

theorem Orderly.identity (n : Nat) : (identity n : Diagram α).Orderly := by
  induction n with
  | zero => exact Orderly.empty
  | succ n ih => exact (beside_addWire ih.idsBelow).orderly ih (orderly_wire _)

theorem orderly_discrete (n : Nat) : (discrete n : Diagram α).Orderly := by
  refine ⟨⟨fun k v hv => ?_, fun k v hv => ?_, fun u v => ?_⟩, fun k hk => ?_, .nil, .nil,
    fun i hi => ?_, fun o ho => ?_⟩
  · rw [node?_discrete] at hv
    split at hv <;> cases hv
    rfl
  · rw [node?_discrete] at hv
    split at hv <;> cases hv
    exact ⟨Tally.positive_empty, Tally.positive_empty⟩
  · rw [above_discrete, below_discrete, List.count_nil, List.count_nil]
  · exact contains_discrete.1 hk
  · cases hi
  · cases ho

theorem Orderly.ofAdjacency {rows : List (List Nat)}
    (h : ofAdjacency rows = .ok g) : g.Orderly := by
  unfold Diagram.ofAdjacency at h
  split at h
  · cases h
  · rename_i hsquare
    cases h
    rw [joinRows_eq_joinAll]
    apply (orderly_discrete rows.length).joinAll
    intro e he
    have hrows : ∀ row ∈ rows, row.length = rows.length := by simpa using hsquare
    obtain ⟨hs, ht⟩ := of_mem_matrixEdges hrows he
    exact checkEdge_eq_ok_iff.2 ⟨contains_discrete.2 (by omega), contains_discrete.2 ht,
      by simp [discrete], by simp [discrete]⟩

end Default

end Diagram

end Wiring
