import Mathlib.Order.WellFounded
import Wiring.Diagram.Acyclic
import Wiring.Proofs.Diagram.Neighbours

/-!
# What stripping finds out

Stripping counts down the edges into every node. On a coherent diagram the count of a waiting node
is the number of its parents, with multiplicity, that have not been stripped. So a node becomes
ready when all its parents are gone, and each node of the residue keeps a parent in the residue.

## Main definitions

- `Diagram.Ranked` — a number for every node that grows along edges
- `Diagram.Acyclic` — some ranking exists
- `Frontier.Fits` — a state of stripping that tells the truth about the diagram

## Main statements

- `Diagram.Stored.exists_strip` — stripping answers wherever nodes know their ids
- `Diagram.Coherent.strip_spec` — order and residue are all nodes; every node of the order comes
  after its parents, and every node of the residue has a parent there
- `Diagram.Coherent.isAcyclic_iff` — nothing is left exactly if there is a ranking
- `Diagram.Coherent.exists_rank_lt` — a ranking below the number of nodes
-/

namespace Wiring

open scoped Unlimited

namespace IdMap

variable {β : Type} {m : IdMap β} {k : Nat}

theorem keys_erase (m : IdMap β) (k : Nat) (hk : m.contains k = true) :
    m.keys.Perm (k :: (m.erase k).keys) := by
  have hnot : k ∉ (m.erase k).keys := by
    rw [mem_keys_iff, contains_iff]
    simp [get?_erase]
  refine (List.perm_ext_iff_of_nodup m.nodup_keys
    (List.nodup_cons.2 ⟨hnot, (m.erase k).nodup_keys⟩)).2 ?_
  intro j
  rw [List.mem_cons, mem_keys_iff, mem_keys_iff]
  by_cases hj : j = k
  · simp [hj, hk]
  · simp [contains, get?_erase, hj]

/-- A map is rebuilt from its entries. -/
theorem ofList_entries (m : IdMap β) : ofList m.entries = m := by
  apply ext
  intro k
  rw [ofList, get?_insertAll, lookup_reverse m.ascending, get?_empty, Option.or_none]
  rfl

end IdMap

namespace Frontier

variable {s : Frontier} {c m k d : Nat}

theorem get?_release : (s.release c m).waiting.get? k =
    if k = c then (s.waiting.get? c).bind fun d => if d ≤ m then none else some (d - m)
    else s.waiting.get? k := by
  unfold release
  cases hc : s.waiting.get? c with
  | none =>
    by_cases hk : k = c
    · simp [hk, hc]
    · simp [hk]
  | some d =>
    simp only [Option.bind_some]
    by_cases hd : d ≤ m
    · rw [if_pos hd, if_pos hd, IdMap.get?_erase]
    · rw [if_neg hd, if_neg hd, IdMap.get?_modify, hc]
      rfl

theorem mem_ready_release : k ∈ (s.release c m).ready ↔
    k ∈ s.ready ∨ k = c ∧ ∃ d, s.waiting.get? c = some d ∧ d ≤ m := by
  unfold release
  cases hc : s.waiting.get? c with
  | none => simp
  | some d => by_cases hd : d ≤ m <;> simp [hd]

theorem perm_release (s : Frontier) (c m : Nat) :
    ((s.release c m).ready ++ (s.release c m).waiting.keys).Perm (s.ready ++ s.waiting.keys) := by
  unfold release
  cases hc : s.waiting.get? c with
  | none => exact List.Perm.refl _
  | some d =>
    by_cases hd : d ≤ m
    · simp only [if_pos hd, List.append_assoc, List.singleton_append]
      exact (IdMap.keys_erase s.waiting c (IdMap.contains_iff.2 ⟨d, hc⟩)).symm.append_left s.ready
    · simp [if_neg hd]

theorem releaseAll_cons (e : Nat × Nat) (l : List (Nat × Nat)) :
    s.releaseAll (e :: l) = (s.release e.1 e.2).releaseAll l := rfl

theorem perm_releaseAll (l : List (Nat × Nat)) : ((s.releaseAll l).ready ++
    (s.releaseAll l).waiting.keys).Perm (s.ready ++ s.waiting.keys) := by
  induction l generalizing s with
  | nil => exact List.Perm.refl _
  | cons e l ih => exact ih.trans (perm_release s e.1 e.2)

/-- Releasing a list of children counts down every node by what is listed for it. Counts of zero
    change nothing since nothing that waits has a count of zero. -/
theorem releaseAll_spec {l : List (Nat × Nat)} (hl : l.Pairwise fun a b => a.1 < b.1)
    (hpos : ∀ k d, s.waiting.get? k = some d → 0 < d) (k : Nat) :
    ((s.releaseAll l).waiting.get? k = (s.waiting.get? k).bind fun d =>
      if d ≤ (l.lookup k).getD 0 then none else some (d - (l.lookup k).getD 0)) ∧
    (k ∈ (s.releaseAll l).ready ↔
      k ∈ s.ready ∨ ∃ d, s.waiting.get? k = some d ∧ d ≤ (l.lookup k).getD 0) := by
  induction l generalizing s with
  | nil =>
    simp only [releaseAll, List.foldl_nil, List.lookup_nil, Option.getD_none]
    cases hk : s.waiting.get? k with
    | none => simp
    | some d =>
      have := hpos k d hk
      simp [Nat.ne_of_gt this]
  | cons e l ih =>
    obtain ⟨c, m⟩ := e
    obtain ⟨hc, hl'⟩ := List.pairwise_cons.1 hl
    have hpos' : ∀ k d, (s.release c m).waiting.get? k = some d → 0 < d := by
      intro k d hk
      rw [get?_release] at hk
      split at hk
      · obtain ⟨d', hd', hlt⟩ := Option.bind_eq_some_iff.1 hk
        split at hlt
        · cases hlt
        · cases hlt
          omega
      · exact hpos k d hk
    -- `c` is listed once, so that the rest of the list does not count it down again
    obtain ⟨hget, hready⟩ := ih hl' hpos'
    rw [releaseAll_cons, hget, hready, get?_release, mem_ready_release, List.lookup_cons]
    by_cases hk : k = c
    · subst hk
      rw [IdMap.lookup_eq_none_of_lt hc]
      cases hkd : s.waiting.get? k with
      | none => simp
      | some d =>
        by_cases hd : d ≤ m
        · simp [hd]
        · simp [hd]
          omega
    · have : (k == c) = false := by simpa using hk
      simp [hk, this]

end Frontier

namespace Diagram

variable {α : Type} {g : Diagram α} {done : List Nat} {i j k : Nat}

/-- `r` grows along every edge. -/
def Ranked (g : Diagram α) (r : Nat → Nat) : Prop := ∀ u v, u ∈ g.above v → r u < r v

/-- **No directed cycle**, said by a ranking. -/
def Acyclic (g : Diagram α) : Prop := ∃ r, g.Ranked r

/-- The edges into `k` from nodes that are not done. -/
def pending (g : Diagram α) (done : List Nat) (k : Nat) : List Nat :=
  (g.above k).filter fun u => !done.contains u

/-- Once another node is done, as many edges fewer are pending as come from it. -/
theorem length_pending_append (hi : i ∉ done) :
    (g.pending (done ++ [i]) k).length + (g.above k).count i = (g.pending done k).length := by
  unfold pending
  induction g.above k with
  | nil => rfl
  | cons u l ih =>
    rw [List.filter_cons, List.filter_cons, List.count_cons]
    by_cases hu : u = i
    · subst hu
      have hdone : done.contains u = false := by simpa using hi
      have happ : (done ++ [u]).contains u = true := by simp
      rw [hdone, happ]
      simp only [Bool.not_true, Bool.not_false, if_true, Bool.false_eq_true, if_false,
        beq_self_eq_true, List.length_cons]
      omega
    · have happ : (done ++ [i]).contains u = done.contains u := by simp [hu]
      have hui : (u == i) = false := by simpa using hu
      rw [happ, hui]
      cases done.contains u
      · simp only [Bool.not_false, if_true, Bool.false_eq_true, if_false, List.length_cons]
        omega
      · simp only [Bool.not_true, Bool.false_eq_true, if_false]
        omega

theorem pending_eq_nil : (g.pending done k).length = 0 ↔ ∀ u ∈ g.above k, u ∈ done := by
  rw [List.length_eq_zero_iff, pending, List.filter_eq_nil_iff]
  simp

end Diagram

namespace Frontier

variable {α : Type} {g : Diagram α} {done : List Nat} {id : Nat} {ready : List Nat}
  {waiting : IdMap Nat} {s : Frontier}

/-- **The state of stripping tells the truth**: the nodes are those done, ready and waiting; a
    ready node has no parents left, and a waiting node counts those it has left. -/
structure Fits (g : Diagram α) (done : List Nat) (s : Frontier) : Prop where
  perm : (done ++ (s.ready ++ s.waiting.keys)).Perm g.ids
  ready : ∀ k ∈ s.ready, (g.pending done k).length = 0
  waiting : ∀ k d, s.waiting.get? k = some d → d = (g.pending done k).length ∧ 0 < d

theorem Fits.not_mem_done (h : Fits g done ⟨id :: ready, waiting⟩) : id ∉ done := by
  have hnodup := h.perm.nodup_iff.2 g.nodes.nodup_keys
  exact fun hmem => (List.nodup_append.1 hnodup).2.2 id hmem id (by simp) rfl

/-- Stripping a ready node keeps the state true. -/
theorem Fits.step (hg : g.Coherent) (h : Fits g done ⟨id :: ready, waiting⟩) {n : Node α}
    (hn : g.node? id = some n) :
    Fits g (done ++ [id]) (releaseAll ⟨ready, waiting⟩ n.children.entries) := by
  have hcount (k : Nat) : (n.children.entries.lookup k).getD 0 = (g.above k).count id := by
    rw [hg.agree, Diagram.below_of_node? hn, Tally.count_spread]
    rfl
  have hpend (k : Nat) := Diagram.length_pending_append (g := g) (k := k) h.not_mem_done
  have hspec := releaseAll_spec (s := ⟨ready, waiting⟩) n.children.ascending
    fun k d hk => (h.waiting k d hk).2
  refine ⟨?_, ?_, ?_⟩
  · have hsame := perm_releaseAll (s := ⟨ready, waiting⟩) n.children.entries
    refine (hsame.append_left _).trans ?_
    simpa using h.perm
  · -- what is ready now was ready before, or has just lost its last pending edge
    intro k hk
    have hsplit := (hspec k).2.1 hk
    have := hpend k
    rw [hcount] at hsplit
    rcases hsplit with hr | ⟨d, hd, hle⟩
    · have := h.ready k (List.mem_cons_of_mem _ hr)
      omega
    · have := (h.waiting k d hd).1
      omega
  · intro k d hk
    rw [(hspec k).1, hcount] at hk
    obtain ⟨d', hd', hsub⟩ := Option.bind_eq_some_iff.1 hk
    have := hpend k
    have := (h.waiting k d' hd').1
    split at hsub
    · cases hsub
    · cases hsub
      constructor <;> omega

end Frontier

namespace Diagram

variable {α : Type} {g : Diagram α} {done : List Nat} {s : Frontier} {i j k : Nat}

/-- From a true state on, stripping finds every parent of a node before the node, and leaves only
    nodes that have a parent left. -/
theorem Coherent.stripFrom_spec (hg : g.Coherent) (h : s.Fits g done) :
    ∃ order residue, g.stripFrom s = .ok (order, residue) ∧
      (done ++ order ++ residue).Perm g.ids ∧
      (∀ before v after, order = before ++ v :: after → ∀ u ∈ g.above v, u ∈ done ++ before) ∧
      ∀ v ∈ residue, ∃ u ∈ g.above v, u ∉ done ++ order := by
  induction hr : s.remaining generalizing s done with
  | zero =>
    obtain ⟨ready, waiting⟩ := s
    have hready : ready = [] := List.length_eq_zero_iff.1 (by
      simp only [Frontier.remaining] at hr
      omega)
    subst hready
    have hwait : waiting.keys = [] := List.length_eq_zero_iff.1 (by
      rw [IdMap.length_keys]
      simpa [Frontier.remaining] using hr)
    refine ⟨[], [], by rw [stripFrom, hwait], ?_, by simp, by simp⟩
    simpa [hwait] using h.perm
  | succ r ih =>
    obtain ⟨ready, waiting⟩ := s
    cases ready with
    | nil =>
      -- nothing is ready, and what waits has an edge pending from a node that is not done
      refine ⟨[], waiting.keys, by rw [stripFrom], by simpa using h.perm, by simp, ?_⟩
      intro v hv
      obtain ⟨d, hd⟩ := IdMap.contains_iff.1 (IdMap.mem_keys_iff.1 hv)
      obtain ⟨hlen, hpos⟩ := h.waiting v d hd
      obtain ⟨u, hu⟩ := List.exists_mem_of_length_pos (hlen ▸ hpos)
      obtain ⟨hmem, hnot⟩ := List.mem_filter.1 hu
      exact ⟨u, hmem, by simpa using hnot⟩
    | cons id ready =>
      have hid : g.contains id = true := mem_ids.1 (h.perm.mem_iff.1 (by simp))
      obtain ⟨n, hn⟩ := contains_iff.1 hid
      obtain ⟨order, residue, hrun, hperm, hfwd, hres⟩ := ih (h.step hg hn) (by
        rw [Frontier.remaining_releaseAll]
        simp only [Frontier.remaining, List.length_cons] at hr ⊢
        omega)
      have hfetch : g.fetch id = .ok n := by rw [fetch, hn]
      refine ⟨id :: order, residue, ?_, by simpa using hperm, ?_, ?_⟩
      · rw [stripFrom, hfetch]
        simp only [hrun]
      · intro before v after heq u hu
        cases before with
        | nil =>
          obtain ⟨rfl, -⟩ := List.cons.inj heq
          rw [List.append_nil]
          exact pending_eq_nil.1 (h.ready id List.mem_cons_self) u hu
        | cons b before =>
          obtain ⟨rfl, htail⟩ := List.cons.inj heq
          simpa using hfwd before v after htail u hu
      · intro v hv
        obtain ⟨u, hu, hnot⟩ := hres v hv
        exact ⟨u, hu, by simpa using hnot⟩

theorem Stored.frontier_eq [Words] (hg : g.Stored) : g.frontier =
    { ready := ((g.nodes.map fun _ n => n.indegree).filter fun _ d => d == 0).keys
      waiting := (g.nodes.map fun _ n => n.indegree).filter fun _ d => d != 0 } := by
  have hvalues : (g.nodes.values.map fun n => (n.id, n.indegree)) =
      (g.nodes.map fun _ n => n.indegree).entries := by
    rw [IdMap.values, List.map_map, IdMap.map]
    apply List.map_congr_left
    intro e he
    simp only [Function.comp_apply, hg e.1 e.2 (IdMap.mem_entries_iff.1 he)]
  rw [frontier, hvalues, IdMap.ofList_entries]

/-- In the beginning every node is ready or waits. -/
theorem Stored.perm_frontier [Words] (hg : g.Stored) :
    (g.frontier.ready ++ g.frontier.waiting.keys).Perm g.ids := by
  rw [hg.frontier_eq]
  have hsplit : (((g.nodes.map fun _ n => n.indegree).filter fun _ d => d == 0).keys ++
      ((g.nodes.map fun _ n => n.indegree).filter fun _ d => d != 0).keys).Perm
      (g.nodes.map fun _ n => n.indegree).keys := by
    simp only [IdMap.keys, IdMap.filter, ← List.map_append]
    exact (List.filter_append_perm _ _).map _
  rwa [IdMap.keys_map] at hsplit

/-- Stripping never comes to an id without a node: what gets ready was waiting before. -/
theorem exists_stripFrom (h : ∀ k ∈ s.ready ++ s.waiting.keys, g.contains k = true) :
    ∃ answer, g.stripFrom s = .ok answer := by
  induction hr : s.remaining using Nat.strongRecOn generalizing s with
  | ind r ih =>
    obtain ⟨ready, waiting⟩ := s
    cases ready with
    | nil => exact ⟨([], waiting.keys), by rw [stripFrom]⟩
    | cons id ready =>
      obtain ⟨n, hn⟩ := contains_iff.1 (h id (by simp))
      have hperm := Frontier.perm_releaseAll (s := ⟨ready, waiting⟩) n.children.entries
      have hless : (Frontier.releaseAll ⟨ready, waiting⟩ n.children.entries).remaining < r := by
        rw [Frontier.remaining_releaseAll, ← hr]
        simp only [Frontier.remaining, List.length_cons]
        omega
      obtain ⟨⟨order, residue⟩, hrun⟩ := ih _ hless
        (fun k hk => h k (List.mem_cons_of_mem _ (hperm.mem_iff.1 hk))) rfl
      have hfetch : g.fetch id = .ok n := by rw [fetch, hn]
      refine ⟨(id :: order, residue), ?_⟩
      rw [stripFrom, hfetch]
      simp only [hrun]

/-- **Stripping answers** on every diagram that stores its nodes under their own ids. -/
theorem Stored.exists_strip [Words] (hg : g.Stored) : ∃ answer, g.strip = .ok answer :=
  exists_stripFrom fun _ hk => mem_ids.1 (hg.perm_frontier.mem_iff.1 hk)

theorem Stored.exists_isCyclic [Words] (hg : g.Stored) :
    ∃ cyclic, g.isCyclic = .ok cyclic := by
  obtain ⟨⟨order, residue⟩, hrun⟩ := hg.exists_strip
  exact ⟨!residue.isEmpty, by rw [isCyclic, hrun]; rfl⟩

theorem Coherent.fits_frontier (hg : g.Coherent) : g.frontier.Fits g [] := by
  have hpend {k : Nat} {d : Nat} (h : (g.nodes.map fun _ n => n.indegree).get? k = some d) :
      d = (g.pending [] k).length := by
    rw [IdMap.get?_map] at h
    obtain ⟨n, hn, rfl⟩ := Option.map_eq_some_iff.1 h
    rw [pending, above_of_node? hn]
    simp [Node.indegree, Tally.length_spread]
  refine ⟨hg.stored.perm_frontier, ?_, ?_⟩
  -- both parts of the frontier are filtered from one map, the numbers of edges in
  all_goals rw [hg.stored.frontier_eq]
  · intro k hk
    obtain ⟨d, hd⟩ := IdMap.contains_iff.1 (IdMap.mem_keys_iff.1 hk)
    rw [IdMap.get?_filter] at hd
    obtain ⟨hd, hzero⟩ := Option.filter_eq_some_iff.1 hd
    rw [← hpend hd]
    simpa using hzero
  · intro k d hk
    rw [IdMap.get?_filter] at hk
    obtain ⟨hd, hne⟩ := Option.filter_eq_some_iff.1 hk
    refine ⟨hpend hd, Nat.pos_of_ne_zero ?_⟩
    simpa using hne

/-- **Stripping lists every node once**, in the order or in the residue. All parents of a node in
    the order are listed before it; a node of the residue has a parent in the residue. -/
theorem Coherent.strip_spec (hg : g.Coherent) :
    ∃ order residue, g.strip = .ok (order, residue) ∧ (order ++ residue).Perm g.ids ∧
      (∀ before v after, order = before ++ v :: after → ∀ u ∈ g.above v, u ∈ before) ∧
      ∀ v ∈ residue, ∃ u ∈ g.above v, u ∈ residue := by
  obtain ⟨order, residue, hrun, hperm, hfwd, hres⟩ := hg.stripFrom_spec hg.fits_frontier
  rw [List.nil_append] at hperm
  refine ⟨order, residue, hrun, hperm, ?_, ?_⟩
  · intro before v after heq u hu
    simpa using hfwd before v after heq u hu
  · intro v hv
    obtain ⟨u, hu, hnot⟩ := hres v hv
    have hid : u ∈ order ++ residue :=
      hperm.mem_iff.2 (mem_ids.2 (hg.contains_of_mem_above hu))
    exact ⟨u, hu, (List.mem_append.1 hid).resolve_left (by simpa using hnot)⟩

/-- In a list without repeats in which parents come first, positions grow along edges. -/
theorem idxOf_lt_idxOf {order : List Nat} (hnodup : order.Nodup)
    (hfwd : ∀ before v after, order = before ++ v :: after → ∀ u ∈ g.above v, u ∈ before)
    {u v : Nat} (hv : v ∈ order) (hu : u ∈ g.above v) : order.idxOf u < order.idxOf v := by
  obtain ⟨before, after, rfl⟩ := List.append_of_mem hv
  have hub := hfwd before v after rfl u hu
  have hvb : v ∉ before := fun hvb =>
    (List.nodup_append.1 hnodup).2.2 v hvb v List.mem_cons_self rfl
  rw [List.idxOf_append_of_mem hub, List.idxOf_append_of_notMem hvb, List.idxOf_cons_self]
  have := List.idxOf_lt_length_of_mem hub
  omega

/-- Ranks of any kind leave no residue, if there is no infinite descent among them. -/
theorem eq_nil_of_rank {β : Type} [Preorder β] [WellFoundedLT β] {r : Nat → β}
    (hr : ∀ u v, u ∈ g.above v → r u < r v) {residue : List Nat}
    (hres : ∀ v ∈ residue, ∃ u ∈ g.above v, u ∈ residue) : residue = [] := by
  rw [List.eq_nil_iff_forall_not_mem]
  intro v
  -- a node of the residue would have a parent of smaller rank there, and so on
  induction hrank : r v using WellFoundedLT.induction generalizing v with
  | ind m ih =>
    intro hv
    obtain ⟨u, hu, hmem⟩ := hres v hv
    exact ih (r u) (hrank ▸ hr u v hu) u rfl hmem

/-- Whatever ranks the nodes, without infinite descent, shows that there is no cycle. -/
theorem Coherent.acyclic_of_rank {β : Type} [Preorder β] [WellFoundedLT β] (hg : g.Coherent)
    {r : Nat → β} (hr : ∀ u v, u ∈ g.above v → r u < r v) : g.Acyclic := by
  obtain ⟨order, residue, -, hperm, hfwd, hres⟩ := hg.strip_spec
  rw [eq_nil_of_rank hr hres, List.append_nil] at hperm
  refine ⟨order.idxOf, ?_⟩
  intro u v hu
  exact idxOf_lt_idxOf (hperm.nodup_iff.2 g.nodes.nodup_keys) hfwd
    (hperm.mem_iff.2 (mem_ids.2 (Diagram.contains_of_mem_above hu))) hu

/-- A diagram that can be ranked can be ranked below the number of its nodes. -/
theorem Coherent.exists_rank_lt (hg : g.Coherent) (h : g.Acyclic) :
    ∃ r, g.Ranked r ∧ ∀ k, g.contains k = true → r k < g.size := by
  obtain ⟨r, hr⟩ := h
  obtain ⟨order, residue, -, hperm, hfwd, hres⟩ := hg.strip_spec
  rw [eq_nil_of_rank hr hres, List.append_nil] at hperm
  have hnodup := hperm.nodup_iff.2 g.nodes.nodup_keys
  refine ⟨order.idxOf, ?_, ?_⟩
  · intro u v hu
    exact idxOf_lt_idxOf hnodup hfwd
      (hperm.mem_iff.2 (mem_ids.2 (Diagram.contains_of_mem_above hu))) hu
  · intro k hk
    have := List.idxOf_lt_length_of_mem (hperm.mem_iff.2 (mem_ids.2 hk))
    rwa [hperm.length_eq, ids, IdMap.length_keys] at this

/-- **Stripping decides acyclicity.** -/
theorem Coherent.isAcyclic_iff (hg : g.Coherent) : g.isAcyclic = .ok true ↔ g.Acyclic := by
  obtain ⟨order, residue, hrun, hperm, hfwd, hres⟩ := hg.strip_spec
  have hval : g.isAcyclic = .ok residue.isEmpty := by rw [isAcyclic, hrun]; rfl
  rw [hval]
  constructor
  · intro h
    have hnil : residue = [] := by simpa using h
    rw [hnil, List.append_nil] at hperm
    refine ⟨order.idxOf, ?_⟩
    intro u v hu
    exact idxOf_lt_idxOf (hperm.nodup_iff.2 g.nodes.nodup_keys) hfwd
      (hperm.mem_iff.2 (mem_ids.2 (Diagram.contains_of_mem_above hu))) hu
  · rintro ⟨r, hr⟩
    rw [eq_nil_of_rank hr hres]
    rfl

/-- The check for a cycle always answers, and says whether there is a ranking. -/
theorem Coherent.exists_isCyclic (hg : g.Coherent) :
    ∃ cyclic, g.isCyclic = .ok cyclic ∧ (cyclic = false ↔ g.Acyclic) := by
  obtain ⟨order, residue, hrun, -⟩ := hg.strip_spec
  refine ⟨!residue.isEmpty, by rw [isCyclic, hrun]; rfl, ?_⟩
  have hval : g.isAcyclic = .ok residue.isEmpty := by rw [isAcyclic, hrun]; rfl
  rw [← hg.isAcyclic_iff, hval]
  simp

end Diagram

end Wiring
