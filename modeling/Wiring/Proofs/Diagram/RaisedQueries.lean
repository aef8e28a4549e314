import Wiring.Diagram.DeadEnds
import Wiring.Diagram.Levels
import Wiring.Proofs.Diagram.Floods
import Wiring.Proofs.Diagram.Raising
import Wiring.Proofs.Diagram.Trails

/-!
# Queries under raised ids

The algorithms on diagrams go from node to node in the order of ids and in the order in which ids
were met. Raising every id by the same distance keeps both orders, so that a raised diagram gives
the raised answer, and a raised fault if there is one. Each loop is followed by the induction of its
own definition, with its whole state raised.

## Main definitions

- `Frontier.raiseIds`, `Mark.raiseIds`, `Trail.raiseIds` — states of the algorithms

## Main statements

- `Diagram.topologicalOrder_raise`, `Diagram.levels_raise`, `Diagram.distances_raise`,
  `Diagram.connectedComponents_raise` — queries
- `Diagram.prune_raise` — pruning
-/

namespace Wiring

open scoped Unlimited

/-! ## Stripping -/

namespace Frontier

variable {s : Frontier} {d c m : Nat}

/-- The state with every id raised. -/
def raiseIds (d : Nat) (s : Frontier) : Frontier := ⟨s.ready.map (· + d), s.waiting.shift d⟩

theorem release_raise : (s.raiseIds d).release (c + d) m = (s.release c m).raiseIds d := by
  have hget : (s.raiseIds d).waiting.get? (c + d) = s.waiting.get? c := IdMap.get?_shift
  rw [release, release, hget]
  cases s.waiting.get? c with
  | none => rfl
  | some n =>
    dsimp only
    by_cases hn : n ≤ m
    · rw [if_pos hn, if_pos hn]
      simp only [raiseIds, IdMap.erase_shift, List.map_append, List.map_cons, List.map_nil]
    · rw [if_neg hn, if_neg hn]
      simp only [raiseIds, IdMap.modify_shift]

theorem raiseIds_cons {id : Nat} {ready : List Nat} {waiting : IdMap Nat} :
    raiseIds d ⟨id :: ready, waiting⟩ = ⟨(id + d) :: ready.map (· + d), waiting.shift d⟩ := rfl

theorem releaseAll_raise (children : List (Nat × Nat)) :
    (s.raiseIds d).releaseAll (children.map fun e => (e.1 + d, e.2)) =
      (s.releaseAll children).raiseIds d := by
  induction children generalizing s with
  | nil => rfl
  | cons e children ih =>
    show ((s.raiseIds d).release (e.1 + d) e.2).releaseAll _ = _
    rw [release_raise, ih]
    rfl

theorem releaseAll_shift {α : Type} {n : Node α} {ready : List Nat} {waiting : IdMap Nat} :
    releaseAll ⟨ready.map (· + d), waiting.shift d⟩ (n.shift d).children.entries =
      (releaseAll ⟨ready, waiting⟩ n.children.entries).raiseIds d := by
  rw [Node.children_shift]
  exact releaseAll_raise (s := ⟨ready, waiting⟩) n.children.entries

end Frontier

namespace Diagram

variable {α : Type} {g : Diagram α} {d : Nat}

theorem frontier_raise : (g.raise d).frontier = g.frontier.raiseIds d := by
  have hcounts : IdMap.ofList ((g.raise d).nodes.values.map fun n => (n.id, n.indegree)) =
      (IdMap.ofList (g.nodes.values.map fun n => (n.id, n.indegree))).shift d := by
    rw [← IdMap.ofList_shift, raise, IdMap.values_raise, List.map_map, List.map_map]
    exact congrArg IdMap.ofList (List.map_congr_left fun n _ => by
      rw [Function.comp, Node.indegree_shift]
      rfl)
  simp only [frontier, Frontier.raiseIds]
  rw [hcounts, IdMap.filter_shift fun _ _ => rfl, IdMap.filter_shift fun _ _ => rfl,
    IdMap.keys_shift]

theorem stripFrom_raise (s : Frontier) :
    (g.raise d).stripFrom (s.raiseIds d) =
      raiseAnswer d (Prod.map (List.map (· + d)) (List.map (· + d))) (g.stripFrom s) := by
  -- along the frontiers that stripping goes through; a fault ends it at one of the two questions
  fun_induction g.stripFrom s with
  | case1 waiting =>
    rw [Frontier.raiseIds, List.map_nil, stripFrom, IdMap.keys_shift]
    rfl
  | case2 id ready waiting fault hfetch =>
    rw [Frontier.raiseIds_cons, stripFrom, fetch_raise, hfetch]
    rfl
  | case3 id ready waiting n hfetch fault hrest ih =>
    rw [Frontier.raiseIds_cons, stripFrom, fetch_raise, hfetch]
    dsimp only [raiseAnswer]
    rw [Frontier.releaseAll_shift, ih, hrest]
    rfl
  | case4 id ready waiting n hfetch order residue hrest ih =>
    rw [Frontier.raiseIds_cons, stripFrom, fetch_raise, hfetch]
    dsimp only [raiseAnswer]
    rw [Frontier.releaseAll_shift, ih, hrest]
    rfl

theorem strip_raise : (g.raise d).strip =
    raiseAnswer d (Prod.map (List.map (· + d)) (List.map (· + d))) g.strip := by
  rw [strip, frontier_raise, stripFrom_raise, strip]

theorem isCyclic_raise : (g.raise d).isCyclic = raiseAnswer d id g.isCyclic := by
  rw [isCyclic, isCyclic, strip_raise]
  refine raiseAnswer_bind fun answer => ?_
  simp only [Prod.map, List.isEmpty_map]
  rfl

/-- **Topological orders** of raised diagrams. -/
theorem topologicalOrder_raise : (g.raise d).topologicalOrder =
    raiseAnswer d (List.map (· + d)) g.topologicalOrder := by
  rw [topologicalOrder, topologicalOrder, strip_raise]
  refine raiseAnswer_bind fun answer => ?_
  simp only [Prod.map, List.isEmpty_map]
  split <;> rfl

/-! ## Levels -/

/-- The children of raised nodes. -/
theorem flatMap_children_shift (nodes : List (Node α)) :
    (nodes.map (·.shift d)).flatMap (·.children.keys) =
      (nodes.flatMap (·.children.keys)).map (· + d) := by
  rw [List.flatMap_map, List.map_flatMap]
  exact congrArg (fun f => nodes.flatMap f) (funext fun n => n.keys_children_shift)

theorem levelsFrom_raise (unplaced : IdMap (Node α)) (candidates : List Nat) :
    (g.raise d).levelsFrom (unplaced.raise d (·.shift d)) (candidates.map (· + d)) =
      raiseAnswer d (List.map (List.map (· + d))) (g.levelsFrom unplaced candidates) := by
  -- candidates are looked up in the whole diagram, but placed among the unplaced nodes only
  have hunknown (candidates : List Nat) : (candidates.map (· + d)).find?
      (fun id => !((g.raise d).isInput id || (g.raise d).contains id)) =
      (candidates.find? fun id => !(g.isInput id || g.contains id)).map (· + d) :=
    find?_map_add (by simp) candidates
  have hlevel (unplaced : IdMap (Node α)) (candidates : List Nat) :
      (unplaced.raise d (·.shift d)).filter
        (fun id _ => (candidates.map (· + d)).contains id) =
      (unplaced.filter fun id _ => candidates.contains id).raise d (·.shift d) :=
    IdMap.filter_raise fun _ _ => contains_map_add
  have hrest (unplaced : IdMap (Node α)) (candidates : List Nat) :
      (unplaced.raise d (·.shift d)).filter
        (fun id _ => !(candidates.map (· + d)).contains id) =
      (unplaced.filter fun id _ => !candidates.contains id).raise d (·.shift d) :=
    IdMap.filter_raise fun _ _ => congrArg (!·) contains_map_add
  fun_induction g.levelsFrom unplaced candidates with
  | case1 unplaced candidates id hid =>
    rw [levelsFrom, hunknown, hid]
    rfl
  | case2 unplaced candidates hid level hempty =>
    rw [levelsFrom, hunknown, hid]
    dsimp only [Option.map_none]
    rw [hlevel, hrest, IdMap.isEmpty_raise, if_pos hempty]
    rfl
  | case3 unplaced candidates hid level rest hempty fault hanswer ih =>
    rw [levelsFrom, hunknown, hid]
    dsimp only [Option.map_none]
    rw [hlevel, hrest, IdMap.isEmpty_raise, if_neg hempty, IdMap.values_raise,
      flatMap_children_shift, ih, hanswer]
    rfl
  | case4 unplaced candidates hid level rest hempty levels hanswer ih =>
    rw [levelsFrom, hunknown, hid]
    dsimp only [Option.map_none]
    rw [hlevel, hrest, IdMap.isEmpty_raise, if_neg hempty, IdMap.values_raise,
      flatMap_children_shift, ih, hanswer, IdMap.keys_raise]
    rfl

/-- The nodes that pass a test, by the ids they go by. -/
theorem map_id_filter_raise {p p' : Node α → Bool} (h : ∀ n, p' (n.shift d) = p n) :
    ((g.raise d).nodes.values.filter p').map (·.id) =
      ((g.nodes.values.filter p).map (·.id)).map (· + d) := by
  rw [values_raise, List.filter_map, List.map_map, List.map_map]
  exact congrArg (List.map _) (List.filter_congr fun n _ => h n)

theorem seeds_raise : (g.raise d).seeds = raiseAnswer d (List.map (· + d)) g.seeds := by
  have hroots : ((g.raise d).nodes.values.filter (·.indegree == 0)).map (·.id) =
      ((g.nodes.values.filter (·.indegree == 0)).map (·.id)).map (· + d) :=
    map_id_filter_raise fun n => congrArg (· == 0) n.indegree_shift
  have hinputs : (g.raise d).inputs.mapM (g.raise d).fetch =
      raiseAnswer d (List.map (·.shift d)) (g.inputs.mapM g.fetch) :=
    raiseAnswer_mapM (fun _ => fetch_raise) g.inputs
  rw [seeds, seeds, hinputs]
  refine raiseAnswer_bind fun inputs => ?_
  dsimp only
  rw [hroots, flatMap_children_shift, ← List.map_append]
  rfl

/-- **Levels** of raised diagrams. -/
theorem levels_raise : (g.raise d).levels =
    raiseAnswer d (List.map (List.map (· + d))) g.levels := by
  have hunplaced : (g.raise d).nodes.filter (fun id _ => !(g.raise d).isInput id) =
      (g.nodes.filter fun id _ => !g.isInput id).raise d (·.shift d) :=
    IdMap.filter_raise fun _ _ => congrArg (!·) isInput_raise
  rw [levels, levels, isCyclic_raise]
  refine raiseAnswer_bind fun cyclic => ?_
  cases cyclic with
  | true => rfl
  | false =>
    rw [hunplaced, seeds_raise]
    exact raiseAnswer_bind fun seeds => levelsFrom_raise _ seeds

end Diagram

/-! ## Distances -/

/-- The mark with every id raised. -/
def Mark.raiseIds (d : Nat) (mark : Mark) : Mark := { mark with via := mark.via.map (· + d) }

/-- The trail with every id raised. -/
def Trail.raiseIds (d : Nat) (t : Trail) : Trail := IdMap.raise d (Mark.raiseIds d) t

section Distances

variable {α : Type} {g : Diagram α} {d : Nat}

theorem Node.neighbours_shift (n : Node α) (direction : Direction) :
    (n.shift d).neighbours direction = (n.neighbours direction).map (· + d) := by
  cases direction with
  | children => exact n.keys_children_shift
  | parents => exact n.keys_parents_shift
  | both =>
    rw [neighbours, neighbours, List.map_append]
    exact congrArg₂ (· ++ ·) n.keys_children_shift n.keys_parents_shift

theorem discover_raise (u distance v : Nat) (queue : List Nat) (trail : Trail) :
    discover (u + d) distance (queue.map (· + d), trail.raiseIds d) (v + d) =
      Prod.map (List.map (· + d)) (Trail.raiseIds d) (discover u distance (queue, trail) v) := by
  have hinsert : (trail.raiseIds d).insert (v + d) ⟨distance + 1, some (u + d)⟩ =
      Trail.raiseIds d (trail.insert v ⟨distance + 1, some u⟩) :=
    IdMap.insert_raise (f := Mark.raiseIds d) (v := ⟨distance + 1, some u⟩)
  have hcontains : (trail.raiseIds d).contains (v + d) = trail.contains v := IdMap.contains_raise
  unfold discover
  dsimp only
  rw [hcontains, hinsert]
  split
  · rfl
  · rw [Prod.map_apply, List.map_append]
    rfl

/-- The neighbours of a node are discovered one after the other. -/
theorem foldl_discover_raise (u distance : Nat) (vs : List Nat) (s : List Nat × Trail) :
    (vs.map (· + d)).foldl (discover (u + d) distance)
        (Prod.map (List.map (· + d)) (Trail.raiseIds d) s) =
      Prod.map (List.map (· + d)) (Trail.raiseIds d) (vs.foldl (discover u distance) s) := by
  induction vs generalizing s with
  | nil => rfl
  | cons v vs ih =>
    obtain ⟨queue, trail⟩ := s
    rw [List.map_cons, List.foldl_cons, List.foldl_cons, Prod.map_apply, discover_raise, ih]

theorem searchFrom_raise (direction : Direction) (target : Option Nat)
    (unvisited : IdMap (Node α)) (queue : List Nat) (trail : Trail) :
    searchFrom direction (target.map (· + d)) (unvisited.raise d (·.shift d))
        (queue.map (· + d)) (trail.raiseIds d) =
      raiseAnswer d (Trail.raiseIds d) (searchFrom direction target unvisited queue trail) := by
  have hother {u : Nat} (hu : target ≠ some u) : target.map (· + d) ≠ some (u + d) := by
    cases target with
    | none => exact fun h => nomatch h
    | some t => simpa using hu
  fun_induction searchFrom direction target unvisited queue trail with
  | case1 unvisited trail =>
    rw [List.map_nil, searchFrom]
    rfl
  | case2 unvisited trail u rest hu =>
    rw [List.map_cons, searchFrom, if_pos (by rw [hu]; rfl)]
    rfl
  | case3 unvisited trail u rest hu hn =>
    rw [List.map_cons, searchFrom_cons_missing (hother hu) (by rw [IdMap.get?_raise, hn]; rfl)]
    rfl
  | case4 unvisited trail u rest hu n hn distance queue' trail' hfold ih =>
    have hdistance : (((trail.raiseIds d).get? (u + d)).map (·.distance)).getD 0 = distance := by
      rw [Trail.raiseIds, IdMap.get?_raise, Option.map_map]
      rfl
    have hdiscovered := foldl_discover_raise (d := d) u distance (n.neighbours direction)
      (rest, trail)
    rw [hfold] at hdiscovered
    rw [List.map_cons, searchFrom_cons (hother hu) (by rw [IdMap.get?_raise, hn]; rfl), hdistance,
      Node.neighbours_shift]
    dsimp only [Prod.map_apply] at hdiscovered ⊢
    rw [hdiscovered, IdMap.erase_raise, ih]

end Distances

namespace Diagram

variable {α : Type} {g : Diagram α} {d : Nat}

theorem checkTarget_raise (target : Option Nat) :
    (g.raise d).checkTarget (target.map (· + d)) = raiseAnswer d id (g.checkTarget target) := by
  cases target with
  | none => rfl
  | some t =>
    show ((g.raise d).find (t + d) >>= _) = _
    rw [find_raise]
    exact raiseAnswer_bind fun _ => rfl

/-- **Distances** in raised diagrams. -/
theorem distances_raise (source : Nat) (target : Option Nat) (direction : Direction) :
    (g.raise d).distances (source + d) (target.map (· + d)) direction =
      raiseAnswer d (Trail.raiseIds d) (g.distances source target direction) := by
  have hstart : Trail.start (source + d) = (Trail.start source).raiseIds d := rfl
  rw [distances, distances, find_raise]
  refine raiseAnswer_bind fun _ => ?_
  rw [checkTarget_raise, hstart]
  exact raiseAnswer_bind fun _ => searchFrom_raise direction target g.nodes [source] _

end Diagram

/-! ## Components -/

section Components

variable {α : Type} {d : Nat}

theorem flow_raise (index v : Nat) (stack : List Nat) (component : IdMap Nat) :
    flow index (stack.map (· + d), component.shift d) (v + d) =
      Prod.map (List.map (· + d)) (·.shift d) (flow index (stack, component) v) := by
  rw [flow, flow, IdMap.insert_shift, IdMap.contains_shift]
  dsimp only [Prod.map_apply]
  split <;> rfl

theorem foldl_flow_raise (index : Nat) (vs : List Nat) (s : List Nat × IdMap Nat) :
    (vs.map (· + d)).foldl (flow index) (Prod.map (List.map (· + d)) (·.shift d) s) =
      Prod.map (List.map (· + d)) (·.shift d) (vs.foldl (flow index) s) := by
  induction vs generalizing s with
  | nil => rfl
  | cons v vs ih =>
    obtain ⟨stack, component⟩ := s
    rw [List.map_cons, List.foldl_cons, List.foldl_cons, Prod.map_apply, flow_raise, ih]

theorem floodFrom_raise (index : Nat) (dry : IdMap (Node α)) (stack : List Nat)
    (component : IdMap Nat) :
    floodFrom index (dry.raise d (·.shift d)) (stack.map (· + d)) (component.shift d) =
      raiseAnswer d (·.shift d) (floodFrom index dry stack component) := by
  fun_induction floodFrom index dry stack component with
  | case1 dry component =>
    rw [List.map_nil, floodFrom]
    rfl
  | case2 dry component u rest hn =>
    rw [List.map_cons, floodFrom_cons_missing (by rw [IdMap.get?_raise, hn]; rfl)]
    rfl
  | case3 dry component u rest n hn stack' component' hfold ih =>
    have hflown := foldl_flow_raise (d := d) index (n.children.keys ++ n.parents.keys)
      (rest, component)
    rw [hfold, List.map_append] at hflown
    rw [List.map_cons, floodFrom_cons (by rw [IdMap.get?_raise, hn]; rfl)]
    have hkeys : (n.shift d).children.keys ++ (n.shift d).parents.keys =
        n.children.keys.map (· + d) ++ n.parents.keys.map (· + d) :=
      congrArg₂ (· ++ ·) n.keys_children_shift n.keys_parents_shift
    dsimp only [Prod.map_apply] at hflown ⊢
    rw [hkeys, hflown, IdMap.erase_raise, ih]

theorem canonicalNumbering_shift (component : IdMap Nat) :
    canonicalNumbering (component.shift d) = (canonicalNumbering component).shift d := by
  rw [canonicalNumbering, canonicalNumbering, IdMap.values_shift]
  exact IdMap.map_shift fun _ _ => rfl

end Components

namespace Diagram

variable {α : Type} {g : Diagram α} {d : Nat}

theorem floodSeeds_raise (seeds : List Nat) (count : Nat) (component : IdMap Nat) :
    (g.raise d).floodSeeds (seeds.map (· + d)) count (component.shift d) =
      raiseAnswer d (Prod.map id (·.shift d)) (g.floodSeeds seeds count component) := by
  induction seeds generalizing count component with
  | nil => rfl
  | cons seed seeds ih =>
    rw [List.map_cons, floodSeeds, floodSeeds, IdMap.contains_shift, contains_raise]
    split
    · exact ih count component
    · have hflood := floodFrom_raise (d := d) count g.nodes [seed] (component.insert seed count)
      rw [← IdMap.insert_shift] at hflood
      have hnodes : (g.raise d).nodes = g.nodes.raise d (·.shift d) := rfl
      rw [List.map_cons, List.map_nil] at hflood
      rw [hnodes, hflood]
      cases floodFrom count g.nodes [seed] (component.insert seed count) with
      | error fault => rfl
      | ok component => exact ih (count + 1) component

theorem componentsFrom_raise (seeds : List Nat) :
    (g.raise d).componentsFrom (seeds.map (· + d)) =
      raiseAnswer d (Prod.map id (·.shift d)) (g.componentsFrom seeds) := by
  have hflood : (g.raise d).floodSeeds (seeds.map (· + d)) 0 IdMap.empty = _ :=
    floodSeeds_raise seeds 0 IdMap.empty
  rw [componentsFrom, componentsFrom, hflood]
  refine raiseAnswer_bind fun (count, component) => ?_
  dsimp only [Prod.map_apply]
  rw [canonicalNumbering_shift]
  rfl

/-- **Components** of raised diagrams, under the numbers they had. -/
theorem connectedComponents_raise : (g.raise d).connectedComponents =
    raiseAnswer d (Prod.map id (·.shift d)) g.connectedComponents := by
  have hids : (g.raise d).ids = g.ids.map (· + d) := IdMap.keys_raise
  rw [connectedComponents, hids, componentsFrom_raise, connectedComponents]

/-! ## Pruning -/

theorem deadEnds_raise : (g.raise d).deadEnds = g.deadEnds.map (· + d) := by
  have hdead (n : Node α) : ((n.shift d).outdegree == 0 && !(g.raise d).isOutput (n.shift d).id) =
      (n.outdegree == 0 && !g.isOutput n.id) := by
    rw [Node.outdegree_shift]
    exact congrArg (fun b => n.outdegree == 0 && !b) isOutput_raise
  exact map_id_filter_raise hdead

theorem removeNodes_deadEnds_raise : (g.raise d).removeNodes (g.raise d).deadEnds =
    (g.removeNodes g.deadEnds).raise d := by
  rw [deadEnds_raise, removeNodes_raise]

/-- **Pruning** raised diagrams. -/
theorem prune_raise : (g.raise d).prune = (g.prune.1.raise d, g.prune.2) := by
  have hempty (g : Diagram α) : (g.raise d).deadEnds.isEmpty = g.deadEnds.isEmpty := by
    rw [deadEnds_raise, List.isEmpty_map]
  have hlength (g : Diagram α) : (g.raise d).deadEnds.length = g.deadEnds.length := by
    rw [deadEnds_raise, List.length_map]
  induction g using prune.induct with
  | case1 g hnone =>
    rw [prune_eq, hempty, if_pos hnone, prune_eq, if_pos hnone]
  | case2 g hsome smaller hsmaller pruned count hrest ih =>
    rw [prune_eq, hempty, if_neg hsome, removeNodes_deadEnds_raise, size_raise, size_raise,
      if_pos hsmaller, ih, hlength, prune_eq g, if_neg hsome, if_pos hsmaller]
  | case3 g hsome smaller hsmaller =>
    rw [prune_eq, hempty, if_neg hsome, removeNodes_deadEnds_raise, size_raise, size_raise,
      if_neg hsmaller, hlength, prune_eq g, if_neg hsome, if_neg hsmaller]

end Diagram

end Wiring
