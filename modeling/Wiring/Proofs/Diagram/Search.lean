import Wiring.Proofs.Diagram.Tracing

/-!
# Breadth-first search finds distances

Nodes get their marks in the order of their distances. While a search goes on, the marks in the
queue ascend and differ by one at most, and all neighbours of a node that has left the queue are
marked. So a walk to a node without a mark, or with too large a one, would have to pass through the
queue.

## Main definitions

- `Diagram.Rounds` — the loop of a search, without a bound
- `Diagram.Searching` — what holds as long as it goes on
- `Diagram.Unvisited` — the nodes that are left to visit
- `Diagram.Charts` — a trail that tells the truth about distances

## Main statements

- `Diagram.Searching.visit` — one round keeps the invariant
- `Diagram.Searching.exists_rounds` — the loop ends
- `Diagram.Searching.isDistance` — the marks are distances at any time
- `Diagram.Charts.pathTo?_spec` — the recorded path is a shortest one
- `Diagram.searches_find_distances` — distances and shortest paths
-/

namespace Wiring

open scoped Unlimited

namespace Diagram

variable {α : Type} {g : Diagram α} {d : Direction} {target : Option Nat} {source u v k n : Nat}
  {queue rest fresh : List Nat} {trail trail' : Trail}

/-! ## Rounds -/

/-- **The loop of a search**, without a bound. After visiting `n` nodes it stops, because the queue
    is empty or the target is next. -/
inductive Rounds (g : Diagram α) (d : Direction) (target : Option Nat) :
    Nat → List Nat → Trail → Trail → Prop where
  | empty (trail : Trail) : Rounds g d target 0 [] trail trail
  | found {u : Nat} (rest : List Nat) (trail : Trail) (h : target = some u) :
      Rounds g d target 0 (u :: rest) trail trail
  | visit {u n : Nat} {rest queue : List Nat} {trail trail' final : Trail} {node : Node α}
      (hne : target ≠ some u) (hnode : g.node? u = some node)
      (hfound : (node.neighbours d).foldl (discover u (trail.depth u)) (rest, trail) =
        (queue, trail'))
      (hrest : Rounds g d target n queue trail' final) :
      Rounds g d target (n + 1) (u :: rest) trail final

/-- **What holds while a search goes on.** The queue lists marked nodes, each once, in the order of
    their marks, and no mark is larger by more than one. Marks come from walks; and the neighbours
    of a node that has left the queue are marked, at most one step farther away. -/
structure Searching (g : Diagram α) (d : Direction) (source : Nat) (queue : List Nat)
    (trail : Trail) : Prop where
  nodup : queue.Nodup
  queued : ∀ v ∈ queue, trail.contains v = true
  root : trail.get? source = some ⟨0, none⟩
  reached : ∀ v mark, trail.get? v = some mark → v ≠ source → ∃ u, mark.via = some u ∧
    g.Step d u v ∧ trail.contains u = true ∧ mark.distance = trail.depth u + 1
  ascending : queue.Pairwise fun u v => trail.depth u ≤ trail.depth v
  span : ∀ v, trail.contains v = true → ∀ q ∈ queue, trail.depth v ≤ trail.depth q + 1
  closed : ∀ u, trail.contains u = true → u ∉ queue → ∀ v, g.Step d u v →
    trail.contains v = true ∧ trail.depth v ≤ trail.depth u + 1

theorem searching_start (g : Diagram α) (d : Direction) (source : Nat) :
    Searching g d source [source] (Trail.start source) := by
  refine
    { nodup := List.nodup_singleton source
      queued := fun v hv => Trail.contains_start.2 (List.mem_singleton.1 hv)
      root := by rw [Trail.get?_start, if_pos rfl]
      reached := fun v mark hv hne => ?_
      ascending := List.pairwise_singleton _ source
      span := fun v hv q hq => ?_
      closed := fun u hu hnot => ?_ }
  · rw [Trail.get?_start, if_neg hne] at hv
    cases hv
  · rw [Trail.contains_start.1 hv, List.mem_singleton.1 hq]
    exact Nat.le_succ _
  · exact absurd (List.mem_singleton.2 (Trail.contains_start.1 hu)) hnot

namespace Searching

section Visit

-- in a round the first node of the queue is visited, which adds marks
variable (h : Searching g d source (u :: rest) trail)
  (hgrows : trail.Grows trail' u (trail.depth u) fresh)
include h

theorem contains_of_mem_rest (hv : v ∈ rest) : trail.contains v = true :=
  h.queued v (List.mem_cons_of_mem u hv)

include hgrows

/-- No mark is larger than the new ones. -/
theorem depth_le (hv : trail'.contains v = true) : trail'.depth v ≤ trail.depth u + 1 := by
  rcases hgrows.contains_iff.1 hv with hv | hv
  · rw [hgrows.depth_of_contains hv]
    exact h.span v hv u List.mem_cons_self
  · rw [hgrows.depth_of_mem hv]

/-- The marks in the queue are not smaller than that of the node that is visited. -/
theorem le_depth (hv : v ∈ rest ++ fresh) : trail.depth u ≤ trail'.depth v := by
  rcases List.mem_append.1 hv with hv | hv
  · rw [hgrows.depth_of_contains (h.contains_of_mem_rest hv)]
    exact (List.pairwise_cons.1 h.ascending).1 v hv
  · rw [hgrows.depth_of_mem hv]
    exact Nat.le_succ _

theorem nodup_visit : (rest ++ fresh).Nodup :=
  (List.nodup_cons.1 h.nodup).2.append hgrows.nodup fun _ hv hnew =>
    hgrows.not_contains hnew (h.contains_of_mem_rest hv)

theorem ascending_visit :
    (rest ++ fresh).Pairwise fun u v => trail'.depth u ≤ trail'.depth v := by
  refine List.pairwise_append.2 ⟨?_, ?_, fun v hv w hw => ?_⟩
  · refine (List.pairwise_cons.1 h.ascending).2.imp_of_mem fun hv hw hle => ?_
    rwa [hgrows.depth_of_contains (h.contains_of_mem_rest hv),
      hgrows.depth_of_contains (h.contains_of_mem_rest hw)]
  · refine hgrows.nodup.imp_of_mem fun hv hw _ => ?_
    rw [hgrows.depth_of_mem hv, hgrows.depth_of_mem hw]
  · rw [hgrows.depth_of_mem hw]
    exact h.depth_le hgrows (hgrows.contains_of_contains (h.contains_of_mem_rest hv))

theorem reached_visit (hfresh : ∀ v ∈ fresh, g.Step d u v) {mark : Mark}
    (hv : trail'.get? v = some mark) (hne : v ≠ source) :
    ∃ u, mark.via = some u ∧ g.Step d u v ∧ trail'.contains u = true ∧
      mark.distance = trail'.depth u + 1 := by
  have hu := h.queued u List.mem_cons_self
  rw [hgrows.get?] at hv
  split at hv
  · rename_i hmem
    cases hv
    exact ⟨u, rfl, hfresh v hmem, hgrows.contains_of_contains hu,
      by rw [hgrows.depth_of_contains hu]⟩
  · obtain ⟨w, hvia, hstep, hw, hdistance⟩ := h.reached v mark hv hne
    exact ⟨w, hvia, hstep, hgrows.contains_of_contains hw,
      by rw [hgrows.depth_of_contains hw, hdistance]⟩

theorem closed_visit (hfresh : ∀ v, v ∈ fresh ↔ g.Step d u v ∧ trail.contains v = false)
    {w : Nat} (hw : trail'.contains w = true) (hnot : w ∉ rest ++ fresh) (hstep : g.Step d w v) :
    trail'.contains v = true ∧ trail'.depth v ≤ trail'.depth w + 1 := by
  rw [List.mem_append, not_or] at hnot
  have hmarked : trail.contains w = true := (hgrows.contains_iff.1 hw).resolve_right hnot.2
  rw [hgrows.depth_of_contains hmarked]
  by_cases hwu : w = u
  · -- the neighbours of the node that is visited have marks by now
    subst hwu
    have hv : trail'.contains v = true := by
      cases hold : trail.contains v with
      | true => exact hgrows.contains_of_contains hold
      | false => exact hgrows.contains_of_mem ((hfresh v).2 ⟨hstep, hold⟩)
    exact ⟨hv, h.depth_le hgrows hv⟩
  · have hqueue : w ∉ u :: rest := by simp [hwu, hnot.1]
    obtain ⟨hv, hle⟩ := h.closed w hmarked hqueue v hstep
    exact ⟨hgrows.contains_of_contains hv, by rwa [hgrows.depth_of_contains hv]⟩

/-- **One round keeps what holds.** -/
theorem visit (hfresh : ∀ v, v ∈ fresh ↔ g.Step d u v ∧ trail.contains v = false) :
    Searching g d source (rest ++ fresh) trail' where
  nodup := h.nodup_visit hgrows
  queued v hv := (List.mem_append.1 hv).elim
    (fun hv => hgrows.contains_of_contains (h.contains_of_mem_rest hv)) hgrows.contains_of_mem
  root := by rw [hgrows.get?_of_contains (IdMap.contains_iff.2 ⟨_, h.root⟩), h.root]
  reached v _ := h.reached_visit hgrows fun v hv => ((hfresh v).1 hv).1
  ascending := h.ascending_visit hgrows
  span v hv q hq := (h.depth_le hgrows hv).trans (Nat.succ_le_succ (h.le_depth hgrows hq))
  closed _ hw hnot _ := h.closed_visit hgrows hfresh hw hnot

end Visit

/-! ## What the marks say -/

section

variable (h : Searching g d source queue trail)
include h

theorem traces : Traces g d source trail where
  root _ hmark := Option.some.inj (hmark.symm.trans h.root)
  reached := h.reached

/-- There is a walk of as many steps as a mark says. -/
theorem walk (hv : trail.contains v = true) : g.Walk d source (trail.depth v) v := h.traces.walk hv

/-- A walk ends at a node with a mark that is no larger than its length, unless it is longer than
    some mark in the queue. -/
theorem marked_or_queued (hwalk : g.Walk d source k v) :
    (trail.contains v = true ∧ trail.depth v ≤ k) ∨ ∃ q ∈ queue, trail.depth q < k := by
  induction hwalk with
  | nil => exact .inl ⟨IdMap.contains_iff.2 ⟨_, h.root⟩, by rw [Trail.depth_of_get? h.root]⟩
  | @snoc k v w _ hstep ih =>
    rcases ih with ⟨hv, hle⟩ | ⟨q, hq, hlt⟩
    · by_cases hqueue : v ∈ queue
      · exact .inr ⟨v, hqueue, by omega⟩
      · obtain ⟨hw, hle'⟩ := h.closed v hv hqueue w hstep
        exact .inl ⟨hw, by omega⟩
    · exact .inr ⟨q, hq, by omega⟩

/-- **Marks are distances**, at any time. -/
theorem isDistance (hv : trail.contains v = true) :
    g.IsDistance d source v (trail.depth v) := by
  refine ⟨h.walk hv, fun k hwalk => ?_⟩
  rcases h.marked_or_queued hwalk with ⟨-, hle⟩ | ⟨q, hq, hlt⟩
  · exact hle
  · exact (h.span v hv q hq).trans hlt

end

/-! ## The loop -/

/-- A node has been visited if it is marked and no longer queued. A round visits one more. -/
theorem visited_iff (h : Searching g d source (u :: rest) trail)
    (hgrows : trail.Grows trail' u (trail.depth u) fresh) :
    (trail'.contains v = true ∧ v ∉ rest ++ fresh) ↔
      v = u ∨ (trail.contains v = true ∧ v ∉ u :: rest) := by
  have hu := h.queued u List.mem_cons_self
  have hurest := (List.nodup_cons.1 h.nodup).1
  rw [hgrows.contains_iff, List.mem_append, not_or, List.mem_cons, not_or]
  constructor
  · rintro ⟨hv | hv, hrest, hfresh⟩
    · by_cases hvu : v = u
      · exact .inl hvu
      · exact .inr ⟨hv, hvu, hrest⟩
    · exact absurd hv hfresh
  · rintro (rfl | ⟨hv, -, hrest⟩)
    · exact ⟨.inl hu, hurest, fun hmem => hgrows.not_contains hmem hu⟩
    · exact ⟨.inl hv, hrest, fun hmem => hgrows.not_contains hmem hv⟩

end Searching

/-- The unvisited nodes are all but those that are marked and no longer queued. -/
def Unvisited (g : Diagram α) (queue : List Nat) (trail : Trail) (unvisited : IdMap (Node α)) :
    Prop :=
  ∀ v, unvisited.get? v = if trail.contains v = true ∧ v ∉ queue then none else g.node? v

theorem unvisited_start (g : Diagram α) (source : Nat) :
    Unvisited g [source] (.start source) g.nodes := by
  intro v
  rw [if_neg]
  · rfl
  · rintro ⟨hv, hnot⟩
    exact hnot (List.mem_singleton.2 (Trail.contains_start.1 hv))

theorem Unvisited.get?_head {unvisited : IdMap (Node α)}
    (h : Unvisited g (u :: rest) trail unvisited) : unvisited.get? u = g.node? u := by
  rw [h u, if_neg fun hvisited => hvisited.2 List.mem_cons_self]

theorem Unvisited.visit {unvisited : IdMap (Node α)}
    (h : Unvisited g (u :: rest) trail unvisited)
    (hs : Searching g d source (u :: rest) trail)
    (hgrows : trail.Grows trail' u (trail.depth u) fresh) :
    Unvisited g (rest ++ fresh) trail' (unvisited.erase u) := by
  intro v
  simp only [hs.visited_iff hgrows, IdMap.get?_erase, h v]
  by_cases hv : v = u
  · simp [hv]
  · simp [hv]

/-- **The search answers**, and its loop ends when it has visited at most as many nodes as are
    left. -/
theorem Searching.exists_rounds (target : Option Nat)
    (hstay : ∀ u v, g.Step d u v → g.contains v = true) (hsource : g.contains source = true)
    {unvisited : IdMap (Node α)} (h : Searching g d source queue trail)
    (hleft : Unvisited g queue trail unvisited) :
    ∃ final left n, searchFrom d target unvisited queue trail = .ok final ∧
      Searching g d source left final ∧ (left = [] ∨ ∃ t ∈ left, target = some t) ∧
      n ≤ unvisited.size ∧ Rounds g d target n queue trail final := by
  induction hsize : unvisited.size using Nat.strongRecOn generalizing unvisited queue trail with
  | ind size ih =>
    cases queue with
    | nil =>
      exact ⟨trail, [], 0, by rw [searchFrom], h, .inl rfl, Nat.zero_le _, .empty trail⟩
    | cons u rest =>
      by_cases htarget : target = some u
      · refine ⟨trail, u :: rest, 0, by rw [searchFrom, if_pos htarget], h, ?_, Nat.zero_le _,
          .found rest trail htarget⟩
        exact .inr ⟨u, List.mem_cons_self, htarget⟩
      · -- the node exists, since a walk leads to it, and it has not been visited before
        have hu : g.contains u = true :=
          (h.walk (h.queued u List.mem_cons_self)).contains hstay hsource
        obtain ⟨node, hnode⟩ := contains_iff.1 hu
        have hunvisited : unvisited.get? u = some node := hleft.get?_head.trans hnode
        have hsmaller := IdMap.size_erase_lt hunvisited
        obtain ⟨fresh, hfresh, hqueue, hgrows⟩ :=
          Trail.exists_grows u (trail.depth u) (node.neighbours d) rest trail
        cases hfound : (node.neighbours d).foldl (discover u (trail.depth u)) (rest, trail) with
        | mk queue' trail' =>
          rw [hfound] at hqueue hgrows
          obtain rfl : queue' = rest ++ fresh := hqueue
          have hnext : Searching g d source (rest ++ fresh) trail' := h.visit hgrows fun v => by
            rw [hfresh, step_iff hnode]
          obtain ⟨final, left, n, hrun, hfinal, hend, hle, hrounds⟩ :=
            ih _ (hsize ▸ hsmaller) hnext (hleft.visit h hgrows) rfl
          refine ⟨final, left, n + 1, ?_, hfinal, hend, by omega,
            .visit htarget hnode hfound hrounds⟩
          rw [searchFrom_cons htarget hunvisited]
          show searchFrom d target _ ((node.neighbours d).foldl (discover u (trail.depth u)) _).1
            ((node.neighbours d).foldl (discover u (trail.depth u)) _).2 = _
          rw [hfound, hrun]

/-! ## What a search leaves -/

/-- **A trail charts the nodes**: what is noted down are distances, for all nodes that can be
    reached or at least for the target; and each node but the source, if it has a distance, has been
    reached from one that is one step closer. -/
structure Charts (g : Diagram α) (d : Direction) (source : Nat) (target : Option Nat)
    (trail : Trail) : Prop where
  exact : ∀ v k, trail.distances.get? v = some k → g.IsDistance d source v k
  complete : ∀ v, target = none ∨ target = some v →
    (trail.distances.contains v = true ↔ ∃ k, g.Walk d source k v)
  predecessor : ∀ v, trail.predecessors.contains v = true ↔
    v ≠ source ∧ trail.distances.contains v = true
  closer : ∀ v u, trail.predecessors.get? v = some u → g.Step d u v ∧
    ∃ k, trail.distances.get? u = some k ∧ trail.distances.get? v = some (k + 1)

/-- The source is reached from nowhere. -/
theorem Searching.ne_source (h : Searching g d source queue trail) {mark : Mark}
    (hmark : trail.get? v = some mark) (hvia : mark.via = some u) : v ≠ source := by
  rintro rfl
  rw [h.root] at hmark
  cases hmark
  cases hvia

theorem Searching.charts (h : Searching g d source queue trail)
    (hend : queue = [] ∨ ∃ t ∈ queue, target = some t) : Charts g d source target trail where
  exact v k hk := by
    obtain ⟨hv, rfl⟩ := Trail.get?_distances_eq_some_iff.1 hk
    exact h.isDistance hv
  complete v htarget := by
    rw [Trail.contains_distances]
    refine ⟨fun hv => ⟨_, h.walk hv⟩, ?_⟩
    rintro ⟨k, hwalk⟩
    rcases hend with rfl | ⟨t, ht, rfl⟩
    · rcases h.marked_or_queued hwalk with ⟨hv, -⟩ | ⟨q, hq, -⟩
      · exact hv
      · cases hq
    · obtain rfl : t = v := Option.some.inj (htarget.resolve_left (by simp))
      exact h.queued t ht
  predecessor v := by
    rw [Trail.contains_distances, IdMap.contains_iff, IdMap.contains_iff]
    simp only [Trail.get?_predecessors, Option.bind_eq_some_iff]
    constructor
    · rintro ⟨u, mark, hmark, hvia⟩
      exact ⟨h.ne_source hmark hvia, mark, hmark⟩
    · rintro ⟨hne, mark, hmark⟩
      obtain ⟨u, hvia, -⟩ := h.reached v mark hmark hne
      exact ⟨u, mark, hmark, hvia⟩
  closer v u hu := by
    rw [Trail.get?_predecessors, Option.bind_eq_some_iff] at hu
    obtain ⟨mark, hmark, hvia⟩ := hu
    obtain ⟨u', hvia', hstep, hu, hdistance⟩ :=
      h.reached v mark hmark (h.ne_source hmark hvia)
    obtain rfl : u = u' := Option.some.inj (hvia.symm.trans hvia')
    refine ⟨hstep, trail.depth u, Trail.get?_distances_eq_some_iff.2 ⟨hu, rfl⟩, ?_⟩
    rw [← hdistance, ← Trail.depth_of_get? hmark]
    exact Trail.get?_distances_eq_some_iff.2 ⟨IdMap.contains_iff.2 ⟨mark, hmark⟩, rfl⟩

namespace Charts

variable (h : Charts g d source target trail)
include h

/-- A chart can be followed back. -/
theorem traces : Traces g d source trail where
  root mark hmark := by
    obtain ⟨distance, via⟩ := mark
    have hdistance : trail.distances.get? source = some distance := by
      rw [Trail.get?_distances, hmark]
      rfl
    obtain rfl : distance = 0 := Nat.le_zero.1 ((h.exact source distance hdistance).least 0 .nil)
    cases via with
    | none => rfl
    | some u =>
      have hback : trail.predecessors.get? source = some u := by
        rw [Trail.get?_predecessors, hmark]
        rfl
      exact absurd rfl ((h.predecessor source).1 (IdMap.contains_iff.2 ⟨u, hback⟩)).1
  reached v mark hmark hne := by
    have hv : trail.distances.contains v = true := by
      rw [Trail.contains_distances]
      exact IdMap.contains_iff.2 ⟨mark, hmark⟩
    obtain ⟨u, hu⟩ := IdMap.contains_iff.1 ((h.predecessor v).2 ⟨hne, hv⟩)
    obtain ⟨hstep, k, hk, hk'⟩ := h.closer v u hu
    obtain ⟨hmarked, rfl⟩ := Trail.get?_distances_eq_some_iff.1 hk
    rw [Trail.get?_predecessors, hmark] at hu
    rw [Trail.get?_distances, hmark] at hk'
    exact ⟨u, hu, hstep, hmarked, Option.some.inj hk'⟩

/-- The path that a chart records is a shortest route. If it records none then there is no walk. -/
theorem pathTo?_spec (htarget : target = none ∨ target = some v) :
    Trail.WalksBack trail.predecessors source v (trail.pathTo? source v) ∧
    (trail.pathTo? source v = none ↔ ¬∃ k, g.Walk d source k v) ∧
    ∀ path, trail.pathTo? source v = some path → g.ShortestRoute d source v path := by
  rw [← h.complete v htarget, Trail.pathTo?]
  cases hv : trail.distances.contains v with
  | true =>
    have hmarked : trail.contains v = true := Trail.contains_distances.symm.trans hv
    have hk := h.exact v _ (Trail.get?_distances_eq_some_iff.2 ⟨hmarked, rfl⟩)
    obtain ⟨path, hpath, hback, hroute, hlength⟩ := h.traces.exists_pathTo? hmarked
    rw [← Trail.pathTo?, hpath]
    refine ⟨hback, by simp, ?_⟩
    intro path' hpath'
    cases hpath'
    exact hk.shortestRoute hroute hlength
  | false =>
    have hne : v ≠ source := by
      rintro rfl
      have hsource := (h.complete v htarget).2 ⟨0, .nil⟩
      rw [hv] at hsource
      cases hsource
    have hnone : trail.predecessors.get? v = none := by
      have hnot := mt (h.predecessor v).1 (by simp [hv])
      simpa [IdMap.contains] using hnot
    rw [Trail.retrace_none hne hnone]
    refine ⟨.stuck hne hnone, by simp, fun path hpath => ?_⟩
    cases hpath

end Charts

/-! ## Searches -/

/-- **A search that starts at a node, and looks for one if for any, answers with a chart.** -/
theorem exists_distances (hstay : ∀ u v, g.Step d u v → g.contains v = true)
    (hsource : g.contains source = true) (htarget : ∀ t, target = some t → g.contains t = true) :
    ∃ trail n, g.distances source target d = .ok trail ∧ Charts g d source target trail ∧
      n ≤ g.size ∧ Rounds g d target n [source] (.start source) trail := by
  obtain ⟨trail, left, n, hrun, hfinal, hend, hle, hrounds⟩ :=
    (searching_start g d source).exists_rounds target hstay hsource (unvisited_start g source)
  obtain ⟨n', hn'⟩ := contains_iff.1 hsource
  have hcheck : g.checkTarget target = .ok () := by
    cases target with
    | none => rfl
    | some t =>
      obtain ⟨m, hm⟩ := contains_iff.1 (htarget t rfl)
      rw [checkTarget, find_eq_ok_iff.2 hm]
      rfl
  refine ⟨trail, n, ?_, hfinal.charts hend, hle, hrounds⟩
  rw [distances, find_eq_ok_iff.2 hn', hcheck]
  exact hrun

/-- **Searches find distances.** If all neighbours exist then a search in any direction answers, its
    loop ends after at most as many rounds as there are nodes, and the trail charts the nodes. On
    the trail of a search along children the way back from the target ends too. It is a shortest
    route, and there is none only if there is no walk. -/
theorem searches_find_distances (hnear : ∀ u v, g.Step .both u v → g.contains v = true)
    (hsource : g.contains source = true) :
    (∀ d target, (∀ t, target = some t → g.contains t = true) →
      ∃ trail n, g.distances source target d = .ok trail ∧ Charts g d source target trail ∧
        n ≤ g.size ∧ Rounds g d target n [source] (.start source) trail) ∧
    ∀ t, g.contains t = true → ∃ trail answer,
      g.distances source (some t) .children = .ok trail ∧
      g.shortestPath source t = .ok answer ∧
      Trail.WalksBack trail.predecessors source t answer ∧
      (answer = none ↔ ¬∃ k, g.Walk .children source k t) ∧
      ∀ path, answer = some path → g.ShortestRoute .children source t path := by
  have hstay (d : Direction) (u v : Nat) (h : g.Step d u v) : g.contains v = true :=
    hnear u v h.both
  refine ⟨fun d target htarget => exists_distances (hstay d) hsource htarget, fun t ht => ?_⟩
  have htarget (t' : Nat) (h : some t = some t') : g.contains t' = true := by
    cases h
    exact ht
  obtain ⟨trail, -, hrun, hcharts, -⟩ := exists_distances (hstay .children) hsource htarget
  refine ⟨trail, _, hrun, by rw [shortestPath, hrun]; rfl, hcharts.pathTo?_spec (.inr rfl)⟩

/-- A node with a loop, a cycle, parallel edges, and a node that stands alone. -/
theorem searches_find_distances_tangle :
    let rows :=
      [[0, 1, 0, 0, 0], [0, 1, 2, 1, 0], [1, 0, 0, 1, 0], [0, 0, 0, 0, 0], [0, 0, 0, 0, 0]]
    ∃ (g : Diagram Nat) (trail : Trail), ofAdjacency rows = .ok g ∧
      g.distances 0 none .children = .ok trail ∧
      trail.distances.entries = [(0, 0), (1, 1), (2, 2), (3, 2)] ∧
      g.IsDistance .children 0 3 2 ∧ (¬∃ k, g.Walk .children 0 k 4) ∧
      g.shortestPath 0 3 = .ok (some [0, 1, 3]) ∧ g.ShortestRoute .children 0 3 [0, 1, 3] ∧
      g.shortestPath 3 0 = .ok none ∧ ¬∃ k, g.Walk .children 3 k 0 := by
  intro rows
  let g : Diagram Nat := (discrete 5).joinRows 0 rows
  have hg : ofAdjacency rows = .ok g := rfl
  have hnear (u v : Nat) (h : g.Step .both u v) : g.contains v = true :=
    (Orderly.ofAdjacency hg).coherent.contains_of_step h
  have hfirst : g.contains 0 = true := by decide
  have hlast : g.contains 3 = true := by decide
  have hentries : (g.distances 0 none .children).map (fun t => t.distances.entries) =
      .ok [(0, 0), (1, 1), (2, 2), (3, 2)] := by decide +kernel
  have hthere : g.shortestPath 0 3 = .ok (some [0, 1, 3]) := by decide +kernel
  have hback : g.shortestPath 3 0 = .ok none := by decide +kernel
  obtain ⟨hsearch, hpath⟩ := searches_find_distances hnear hfirst
  obtain ⟨-, hpath'⟩ := searches_find_distances hnear hlast
  obtain ⟨trail, n, hrun, hcharts, -⟩ := hsearch .children none fun t ht => (nomatch ht)
  obtain ⟨-, there, -, hthere', -, -, hshortest⟩ := hpath 3 hlast
  obtain ⟨-, back, -, hback', -, hnone, -⟩ := hpath' 0 hfirst
  rw [hrun] at hentries
  rw [hthere, Except.ok.injEq] at hthere'
  rw [hback, Except.ok.injEq] at hback'
  have hmarks : trail.distances.entries = [(0, 0), (1, 1), (2, 2), (3, 2)] :=
    Except.ok.inj hentries
  refine ⟨g, trail, hg, hrun, hmarks, hcharts.exact 3 2 ?_, ?_, hthere,
    hshortest _ hthere'.symm, hback, hnone.1 hback'.symm⟩
  · rw [IdMap.get?, hmarks]
    rfl
  · rw [← hcharts.complete 4 (.inl rfl), IdMap.contains, IdMap.get?, hmarks]
    decide

end Diagram

end Wiring
