import Wiring.Diagram.Merge
import Wiring.Proofs.Diagram.EditRuns
import Wiring.Proofs.Diagram.Stripping

/-!
# Merged nodes

To merge `b` into `a` is to remove `b` and to join what was joined to `b` to `a` instead. Seen
through the neighbour lists, `a` and `b` are identified: `a` gets the neighbours of both, and stands
in all lists where `b` stood.

## Main definitions

- `Diagram.retarget` — identifies two ids
- `Diagram.mergedEdges` — the edges that a merged node takes over
- `Diagram.KeepsPorts` — merging two nodes leaves terminals in order
- `Diagram.SparesPorts` — and with a single edge at most

## Main statements

- `Diagram.merge_eq` — merging is removing and joining
- `Diagram.above_merge`, `Diagram.below_merge` — the lists in a merged diagram
- `Diagram.checkMerge_eq_ok_iff` — what it takes for two nodes to be merged
-/

namespace Wiring

open scoped Unlimited

/-- Counts to one neighbour add up. -/
theorem Tally.add_add (t : Tally) (k m m' : Nat) : (t.add k m).add k m' = t.add k (m + m') := by
  unfold Tally.add
  by_cases hm : m = 0
  · simp [hm]
  · by_cases hm' : m' = 0
    · simp [hm, hm']
    · rw [if_neg hm, if_neg hm', if_neg (by omega)]
      apply IdMap.ext
      intro j
      simp only [IdMap.get?_alter]
      by_cases hj : j = k
      · simp [hj, Nat.add_assoc]
      · simp [hj]

namespace Diagram

variable {α : Type} {g h : Diagram α} {a b i j k s t m : Nat} {n : Node α}

/-! ## Edges joined one by one -/

/-- Parallel edges can be joined one by one. -/
theorem join_eq_joinAll (g : Diagram α) (s t m : Nat) :
    g.join s t m = g.joinAll (List.replicate m (s, t)) := by
  induction m generalizing g with
  | zero =>
    refine ext_of_node? (fun k => ?_) rfl rfl rfl
    show (g.join s t 0).node? k = g.node? k
    rw [node?_join]
    cases g.node? k <;> simp [Node.addChild, Node.addParent, Tally.add]
  | succ m ih =>
    rw [List.replicate_succ, joinAll_cons, ← ih]
    refine ext_of_node? (fun k => ?_) rfl rfl rfl
    simp only [node?_join, Option.map_map]
    congr 1
    funext n
    have hadd (t : Tally) (k : Nat) : t.add k (m + 1) = (t.add k 1).add k m := by
      rw [Tally.add_add, Nat.add_comm]
    by_cases hs : k = s <;> by_cases ht : k = t
    · simp only [if_pos hs, if_pos ht, Function.comp_apply, Node.addChild, Node.addParent, hadd]
    · simp only [if_pos hs, if_neg ht, Function.comp_apply, Node.addChild, hadd]
    · simp only [if_neg hs, if_pos ht, Function.comp_apply, Node.addParent, hadd]
    · simp only [if_neg hs, if_neg ht, Function.comp_apply]

theorem joinAll_append (es es' : List (Nat × Nat)) :
    g.joinAll (es ++ es') = (g.joinAll es).joinAll es' := List.foldl_append

/-- Joining only looks at the nodes. -/
theorem node?_joinAll_congr (hnodes : ∀ k, g.node? k = h.node? k) (es : List (Nat × Nat)) :
    (g.joinAll es).node? k = (h.joinAll es).node? k := by
  induction es generalizing g h with
  | nil => exact hnodes k
  | cons e es ih =>
    refine ih (g := g.join e.1 e.2 1) (h := h.join e.1 e.2 1) fun k => ?_
    rw [node?_join, node?_join, hnodes]

/-! ## Forgetting a neighbour -/

/-- The same change of many nodes. -/
def updateNodes (g : Diagram α) (ids : List Nat) (f : Node α → Node α) : Diagram α :=
  ids.foldl (·.updateNode · f) g

theorem node?_updateNodes {f : Node α → Node α} (hf : ∀ n, f (f n) = f n) (ids : List Nat) :
    (g.updateNodes ids f).node? k = (g.node? k).map (if k ∈ ids then f else id) := by
  induction ids generalizing g with
  | nil => simp [updateNodes]
  | cons i ids ih =>
    show ((g.updateNode i f).updateNodes ids f).node? k = _
    rw [ih, node?_updateNode]
    by_cases hk : k = i
    · subst hk
      by_cases hmem : k ∈ ids
      · simp [hmem, Function.comp_def, hf]
      · simp [hmem]
    · simp [hk]

@[simp] theorem contains_updateNodes {f : Node α → Node α} (ids : List Nat) :
    (g.updateNodes ids f).contains k = g.contains k := by
  induction ids generalizing g with
  | nil => rfl
  | cons i ids ih => exact ih.trans contains_updateNode

@[simp] theorem inputs_updateNodes {f : Node α → Node α} (ids : List Nat) :
    (g.updateNodes ids f).inputs = g.inputs := by
  induction ids generalizing g with
  | nil => rfl
  | cons i ids ih => exact ih

@[simp] theorem outputs_updateNodes {f : Node α → Node α} (ids : List Nat) :
    (g.updateNodes ids f).outputs = g.outputs := by
  induction ids generalizing g with
  | nil => rfl
  | cons i ids ih => exact ih

@[simp] theorem nextId_updateNodes {f : Node α → Node α} (ids : List Nat) :
    (g.updateNodes ids f).nextId = g.nextId := by
  induction ids generalizing g with
  | nil => rfl
  | cons i ids ih => exact ih

/-- A change of nodes that commutes with joining can be made first. -/
theorem updateNodes_joinAll {f : Node α → Node α} {es : List (Nat × Nat)}
    (hcomm : ∀ e ∈ es, ∀ (g : Diagram α) i,
      (g.join e.1 e.2 1).updateNode i f = (g.updateNode i f).join e.1 e.2 1) (ids : List Nat) :
    (g.joinAll es).updateNodes ids f = (g.updateNodes ids f).joinAll es := by
  have hone (g : Diagram α) (i : Nat) :
      (g.joinAll es).updateNode i f = (g.updateNode i f).joinAll es := by
    induction es generalizing g with
    | nil => rfl
    | cons e es ih =>
      rw [joinAll_cons, joinAll_cons, ih (fun e' he' => hcomm e' (List.mem_cons_of_mem _ he')),
        hcomm e List.mem_cons_self]
  induction ids generalizing g with
  | nil => rfl
  | cons i ids ih =>
    show ((g.joinAll es).updateNode i f).updateNodes ids f =
      ((g.updateNode i f).updateNodes ids f).joinAll es
    rw [hone, ih]

theorem eraseChild_join (ht : t ≠ b) (g : Diagram α) (i : Nat) :
    (g.join s t m).updateNode i (·.eraseChild b) =
      (g.updateNode i (·.eraseChild b)).join s t m := by
  have hparent (g : Diagram α) :
      (g.updateNode t (·.addParent s m)).updateNode i (·.eraseChild b) =
        (g.updateNode i (·.eraseChild b)).updateNode t (·.addParent s m) :=
    updateNode_comm fun _ _ => rfl
  unfold join
  rw [hparent, updateNode_comm (i := s)]
  rintro - n
  simp only [Node.addChild, Node.eraseChild, add_erase_comm n.children ht]

theorem eraseParent_join (hs : s ≠ b) (g : Diagram α) (i : Nat) :
    (g.join s t m).updateNode i (·.eraseParent b) =
      (g.updateNode i (·.eraseParent b)).join s t m := by
  have hchild (g : Diagram α) :
      (g.updateNode s (·.addChild t m)).updateNode i (·.eraseParent b) =
        (g.updateNode i (·.eraseParent b)).updateNode s (·.addChild t m) :=
    updateNode_comm fun _ _ => rfl
  unfold join
  rw [updateNode_comm (i := t), hchild]
  rintro - n
  simp only [Node.addParent, Node.eraseParent, add_erase_comm n.parents hs]

/-! ## Merging -/

/-- Puts `a` in the place of `b`. -/
def retarget (a b k : Nat) : Nat := if k = b then a else k

@[simp] theorem retarget_self : retarget a b b = a := if_pos rfl

theorem retarget_of_ne (hk : k ≠ b) : retarget a b k = k := if_neg hk

theorem retarget_ne (hab : a ≠ b) (k : Nat) : retarget a b k ≠ b := by
  unfold retarget
  split
  · exact hab
  · assumption

/-- The edges that `a` takes over from the node `n` under `b`; loops come as parents only. -/
def mergedEdges (a b : Nat) (n : Node α) : List (Nat × Nat) :=
  n.parents.spread.map (fun p => (retarget a b p, a)) ++
    (n.children.spread.filter (· != b)).map (a, ·)

theorem adoptParents_eq (hab : a ≠ b) (hb : g.contains b = false) (t : Tally) :
    g.adoptParents a b t = (g.updateNodes t.keys (·.eraseChild b)).joinAll
      (t.spread.map fun p => (retarget a b p, a)) := by
  unfold adoptParents Tally.spread IdMap.keys
  induction t.entries generalizing g with
  | nil => rfl
  | cons e l ih =>
    have hstep : (if e.1 = b then g.join a a e.2
        else (g.updateNode e.1 (·.eraseChild b)).join e.1 a e.2) =
        (g.updateNode e.1 (·.eraseChild b)).join (retarget a b e.1) a e.2 := by
      unfold retarget
      split
      · rename_i he
        rw [he, updateNode_of_not_contains hb]
      · rfl
    rw [List.foldl_cons, hstep, ih (by rw [contains_join, contains_updateNode, hb]),
      join_eq_joinAll, updateNodes_joinAll, List.flatMap_cons, List.map_append,
      List.map_replicate, joinAll_append]
    · rfl
    · intro e' he' g i
      rw [List.eq_of_mem_replicate he']
      exact eraseChild_join hab g i

theorem adoptChildren_eq (hab : a ≠ b) (hb : g.contains b = false) (t : Tally) :
    g.adoptChildren a b t = (g.updateNodes t.keys (·.eraseParent b)).joinAll
      ((t.spread.filter (· != b)).map (a, ·)) := by
  unfold adoptChildren Tally.spread IdMap.keys
  induction t.entries generalizing g with
  | nil => rfl
  | cons e l ih =>
    have hstep : (if e.1 = b then g else (g.updateNode e.1 (·.eraseParent b)).join a e.1 e.2) =
        (g.updateNode e.1 (·.eraseParent b)).joinAll
          (((List.replicate e.2 e.1).filter (· != b)).map (a, ·)) := by
      split
      · rename_i he
        have hnone : (List.replicate e.2 b).filter (· != b) = [] := by simp
        rw [he, updateNode_of_not_contains hb, hnone]
        rfl
      · rename_i he
        have hall : (List.replicate e.2 e.1).filter (· != b) = List.replicate e.2 e.1 := by
          rw [List.filter_replicate, if_pos (by simpa using he)]
        rw [join_eq_joinAll, hall, List.map_replicate]
    rw [List.foldl_cons, hstep, ih (by rw [contains_joinAll, contains_updateNode, hb]),
      updateNodes_joinAll, List.flatMap_cons, List.filter_append, List.map_append, joinAll_append]
    · rfl
    · intro e' he' g i
      obtain ⟨c, -, rfl⟩ := List.mem_map.1 he'
      exact eraseParent_join hab g i

/-- What is left when `b` is taken out and its neighbours forget it. -/
theorem node?_updateNodes_erase (hn : g.node? b = some n) :
    (({ g with nodes := g.nodes.erase b }.updateNodes n.parents.keys
      (·.eraseChild b)).updateNodes n.children.keys (·.eraseParent b)).node? k =
      (g.removeNode b).node? k := by
  have herase (t : Tally) : IdMap.erase (t.erase b) b = t.erase b := by
    apply IdMap.ext
    intro i
    simp only [IdMap.get?_erase]
    split <;> rfl
  rw [node?_updateNodes (fun n => by simp only [Node.eraseParent, herase]),
    node?_updateNodes (fun n => by simp only [Node.eraseChild, herase]), Diagram.node?_removeNode,
    hn]
  show Option.map _ (Option.map _ ((g.nodes.erase b).get? k)) = _
  rw [IdMap.get?_erase]
  by_cases hk : k = b
  · rw [if_pos hk, if_pos hk]
    rfl
  · rw [if_neg hk, if_neg hk, Option.map_map]
    show Option.map _ (g.node? k) = Option.map _ (g.node? k)
    congr 1
    funext n'
    simp only [Function.comp_apply, forget, IdMap.mem_keys_iff]
    split <;> split <;> rfl

/-- **Merging is removing and joining.** -/
theorem merge_eq (hab : a ≠ b) (hn : g.node? b = some n) : g.merge a b =
    { (g.removeNode b).joinAll (mergedEdges a b n) with
      inputs := g.inputs.map (retarget a b)
      outputs := g.outputs.map (retarget a b) } := by
  have hb : ({ g with nodes := g.nodes.erase b } : Diagram α).contains b = false := by
    show (g.nodes.erase b).contains b = false
    rw [IdMap.contains, IdMap.get?_erase, if_pos rfl]
    rfl
  unfold merge
  rw [if_neg hab, hn]
  dsimp only
  rw [adoptParents_eq hab hb, adoptChildren_eq hab (by simp [hb]), updateNodes_joinAll,
    ← joinAll_append]
  · refine ext_of_node? (fun k => ?_) ?_ ?_ ?_
    · exact node?_joinAll_congr (fun k => node?_updateNodes_erase hn) _
    · dsimp only
      rw [inputs_joinAll, inputs_updateNodes, inputs_updateNodes]
      rfl
    · dsimp only
      rw [outputs_joinAll, outputs_updateNodes, outputs_updateNodes]
      rfl
    · rw [nextId_joinAll, nextId_updateNodes, nextId_updateNodes, nextId_joinAll,
        nextId_removeNode]
  · intro e he g i
    obtain ⟨p, -, rfl⟩ := List.mem_map.1 he
    exact eraseParent_join (retarget_ne hab p) g i

section Merge

variable (hab : a ≠ b) (hb : g.contains b = true)
include hab hb

theorem inputs_merge : (g.merge a b).inputs = g.inputs.map (retarget a b) := by
  obtain ⟨n, hn⟩ := contains_iff.1 hb
  rw [merge_eq hab hn]

theorem outputs_merge : (g.merge a b).outputs = g.outputs.map (retarget a b) := by
  obtain ⟨n, hn⟩ := contains_iff.1 hb
  rw [merge_eq hab hn]

theorem nextId_merge : (g.merge a b).nextId = g.nextId := by
  obtain ⟨n, hn⟩ := contains_iff.1 hb
  rw [merge_eq hab hn, nextId_joinAll, nextId_removeNode]

theorem contains_merge : (g.merge a b).contains k = (g.contains k && k != b) := by
  obtain ⟨n, hn⟩ := contains_iff.1 hb
  rw [merge_eq hab hn]
  show ((g.removeNode b).joinAll _).contains k = _
  rw [contains_joinAll, contains_removeNode]

theorem label?_merge : (g.merge a b).label? k = if k = b then none else g.label? k := by
  obtain ⟨n, hn⟩ := contains_iff.1 hb
  rw [merge_eq hab hn]
  show ((g.removeNode b).joinAll _).label? k = _
  rw [label?_joinAll, label?_removeNode]

end Merge

/-! ## Neighbour lists -/

/-- In a list in which `a` has taken the place of `b`, occurrences of `b` come as occurrences of
    `a`. -/
theorem map_retarget_perm (a b : Nat) (l : List Nat) :
    (l.map (retarget a b)).Perm (l.filter (· != b) ++ List.replicate (l.count b) a) := by
  induction l with
  | nil => exact List.Perm.refl _
  | cons x l ih =>
    by_cases hx : x = b
    · have hmap : retarget a b x = a := if_pos hx
      rw [List.map_cons, hmap, hx, List.filter_cons_of_neg (by simp), List.count_cons_self,
        List.replicate_succ]
      exact (ih.cons a).trans List.perm_middle.symm
    · have hmap : retarget a b x = x := retarget_of_ne hx
      rw [List.map_cons, hmap, List.filter_cons_of_pos (by simpa using hx),
        List.count_cons_of_ne hx]
      exact ih.cons x

theorem count_map_retarget (hk : k ≠ b) (l : List Nat) :
    (l.map (retarget a b)).count k = l.count k + if k = a then l.count b else 0 := by
  rw [(map_retarget_perm a b l).count_eq, List.count_append, List.count_replicate,
    List.count_filter (by simpa using hk)]
  by_cases hka : k = a
  · rw [if_pos (by simpa using hka.symm), if_pos hka]
  · rw [if_neg (by simpa using Ne.symm hka), if_neg hka]

section Merge

variable (hg : g.Coherent) (hab : a ≠ b) (ha : g.contains a = true) (hb : g.contains b = true)
include hg hab ha hb

theorem Coherent.merge : (g.merge a b).Coherent := by
  obtain ⟨n, hn⟩ := contains_iff.1 hb
  have ha' : (g.removeNode b).contains a = true := contains_removeNode_iff.2 ⟨ha, hab⟩
  have hjoin : ((g.removeNode b).joinAll (mergedEdges a b n)).Coherent := by
    apply (hg.removeNode b).joinAll
    intro e he
    rcases List.mem_append.1 he with he | he
    · obtain ⟨p, hp, rfl⟩ := List.mem_map.1 he
      rw [← above_of_node? hn] at hp
      refine ⟨?_, ha'⟩
      by_cases hpb : p = b
      · rw [retarget, if_pos hpb]
        exact ha'
      · rw [retarget_of_ne hpb]
        exact contains_removeNode_iff.2 ⟨hg.contains_of_mem_above hp, hpb⟩
    · obtain ⟨c, hc, rfl⟩ := List.mem_map.1 he
      rw [List.mem_filter, bne_iff_ne, ← below_of_node? hn] at hc
      exact ⟨ha', contains_removeNode_iff.2 ⟨hg.contains_of_mem_below hc.1, hc.2⟩⟩
  rw [merge_eq hab hn]
  exact ⟨hjoin.id_eq, hjoin.positive, hjoin.agree⟩

omit ha in
/-- **The parents of a merged diagram**: those of `a` and `b` are parents of `a`, and where `b` was
    a parent there is `a`. -/
theorem above_merge (hk : g.contains k = true) (hkb : k ≠ b) : ((g.merge a b).above k).Perm
    ((if k = a then g.above a ++ g.above b else g.above k).map (retarget a b)) := by
  obtain ⟨n, hn⟩ := contains_iff.1 hb
  have hnew : ((mergedEdges a b n).filter (·.2 == k)).map (·.1) =
      (if k = a then (g.above b).map (retarget a b) else []) ++
        List.replicate ((g.above k).count b) a := by
    have hin : (n.parents.spread.map fun p => (retarget a b p, a)) =
        (n.parents.spread.map (retarget a b)).map (·, a) := by rw [List.map_map]; rfl
    rw [mergedEdges, List.filter_append, List.map_append, hin, map_filter_into, map_filter_from,
      List.count_filter (by simpa using hkb), ← above_of_node? hn, ← below_of_node? hn, hg.agree]
  have hjoin := above_joinAll (mergedEdges a b n) (contains_removeNode_iff.2 ⟨hk, hkb⟩)
  rw [hnew, hg.above_removeNode, if_neg hkb] at hjoin
  rw [merge_eq hab hn]
  refine hjoin.trans ?_
  have hperm := map_retarget_perm a b (g.above k)
  by_cases hka : k = a
  · subst hka
    rw [if_pos rfl, if_pos rfl, List.map_append]
    exact (List.perm_append_comm.append_left _).trans
      ((List.append_assoc _ _ _).symm ▸ hperm.symm.append_right _)
  · rw [if_neg hka, if_neg hka, List.nil_append]
    exact hperm.symm

omit ha in
/-- **The children of a merged diagram.** -/
theorem below_merge (hk : g.contains k = true) (hkb : k ≠ b) : ((g.merge a b).below k).Perm
    ((if k = a then g.below a ++ g.below b else g.below k).map (retarget a b)) := by
  obtain ⟨n, hn⟩ := contains_iff.1 hb
  have hnew : ((mergedEdges a b n).filter (·.1 == k)).map (·.2) =
      List.replicate ((g.below k).count b + if k = a then (g.below b).count b else 0) a ++
        if k = a then (g.below b).filter (· != b) else [] := by
    have hin : (Prod.swap ∘ fun p => (retarget a b p, a)) = (a, ·) ∘ retarget a b := rfl
    have hout : (Prod.swap ∘ fun c => (a, c)) = ((·, a) : Nat → Nat × Nat) := rfl
    rw [mergedEdges, List.filter_append, List.map_append, map_filter_swap, map_filter_swap,
      List.map_map, List.map_map, hin, ← List.map_map, hout, map_filter_from, map_filter_into,
      count_map_retarget hkb, ← above_of_node? hn, ← below_of_node? hn, hg.agree, hg.agree]
  have hjoin := below_joinAll (mergedEdges a b n) (contains_removeNode_iff.2 ⟨hk, hkb⟩)
  rw [hnew, hg.below_removeNode, if_neg hkb] at hjoin
  rw [merge_eq hab hn]
  refine hjoin.trans ?_
  by_cases hka : k = a
  · subst hka
    rw [if_pos rfl, if_pos rfl, if_pos rfl, List.map_append, List.replicate_add,
      List.append_assoc, ← List.append_assoc]
    exact (map_retarget_perm k b (g.below k)).symm.append
      (List.perm_append_comm.trans (map_retarget_perm k b (g.below b)).symm)
  · rw [if_neg hka, if_neg hka, if_neg hka, Nat.add_zero, List.append_nil]
    exact (map_retarget_perm a b (g.below k)).symm

omit ha in
theorem length_above_merge (hk : g.contains k = true) (hkb : k ≠ b) :
    ((g.merge a b).above k).length =
      if k = a then (g.above a).length + (g.above b).length else (g.above k).length := by
  rw [(above_merge hg hab hb hk hkb).length_eq, List.length_map]
  split
  · rw [List.length_append]
  · rfl

omit ha in
theorem length_below_merge (hk : g.contains k = true) (hkb : k ≠ b) :
    ((g.merge a b).below k).length =
      if k = a then (g.below a).length + (g.below b).length else (g.below k).length := by
  rw [(below_merge hg hab hb hk hkb).length_eq, List.length_map]
  split
  · rw [List.length_append]
  · rfl

end Merge

theorem IdsBelow.merge (h : g.IdsBelow) (hab : a ≠ b) (hb : g.contains b = true) :
    (g.merge a b).IdsBelow := by
  intro k hk
  rw [contains_merge hab hb, Bool.and_eq_true] at hk
  rw [nextId_merge hab hb]
  exact h k hk.1

/-! ## When nodes may be merged -/

/-- If one of the two is listed among `ports` then not both are, and neither has edges on the side
    that `edges` tells of. -/
def KeepsPorts (ports : List Nat) (edges : Nat → List Nat) (a b : Nat) : Prop :=
  a ∈ ports ∨ b ∈ ports → edges a = [] ∧ edges b = [] ∧ ¬(a ∈ ports ∧ b ∈ ports)

/-- If one of the two is listed among `ports` then they have at most one edge between them on the
    side that `edges` tells of. -/
def SparesPorts (ports : List Nat) (edges : Nat → List Nat) (a b : Nat) : Prop :=
  a ∈ ports ∨ b ∈ ports → (edges a).length + (edges b).length ≤ 1

/-- Both checks of terminals are of this form. -/
theorem checkPorts_eq_ok_iff {port bad : Bool} {x y : Nat} {faultX faultY fault : Fault} :
    (if !port then Except.ok () else if 0 < y then .error faultY
      else if 0 < x then .error faultX else if bad then .error fault
      else .ok ()) = Except.ok () ↔ (port = true → x = 0 ∧ y = 0 ∧ ¬bad = true) := by
  cases port with
  | false => simp
  | true =>
    rw [Bool.not_true, if_neg Bool.false_ne_true]
    split
    · simp
      omega
    · split
      · simp
        omega
      · cases bad <;> simp
        omega

theorem checkMergeInputs_eq_ok_iff {nodeA nodeB : Node α} (hA : g.node? a = some nodeA)
    (hB : g.node? b = some nodeB) : g.checkMergeInputs a b nodeA nodeB = .ok () ↔
      KeepsPorts g.inputs g.above a b ∧ SparesPorts g.inputs g.below a b := by
  rw [KeepsPorts, SparesPorts, above_eq_nil_iff hA, above_eq_nil_iff hB, length_below_of_node? hA,
    length_below_of_node? hB, checkMergeInputs, checkPorts_eq_ok_iff, ← forall_and]
  simp only [isInput, Bool.or_eq_true, Bool.and_eq_true, List.contains_iff_mem, decide_eq_true_eq,
    not_or, Nat.not_lt, and_assoc]
  rw [Words.wrap_unlimited]

theorem checkMergeOutputs_eq_ok_iff {nodeA nodeB : Node α} (hA : g.node? a = some nodeA)
    (hB : g.node? b = some nodeB) : g.checkMergeOutputs a b nodeA nodeB = .ok () ↔
      KeepsPorts g.outputs g.below a b ∧ SparesPorts g.outputs g.above a b := by
  rw [KeepsPorts, SparesPorts, below_eq_nil_iff hA, below_eq_nil_iff hB, length_above_of_node? hA,
    length_above_of_node? hB, checkMergeOutputs, checkPorts_eq_ok_iff, ← forall_and]
  simp only [isOutput, Bool.or_eq_true, Bool.and_eq_true, List.contains_iff_mem, decide_eq_true_eq,
    not_or, Nat.not_lt, and_assoc]
  rw [Words.wrap_unlimited]

/-- **When two nodes may be merged.** -/
theorem checkMerge_eq_ok_iff (hab : a ≠ b) : g.checkMerge a b = .ok () ↔
    g.contains a = true ∧ g.contains b = true ∧
      (KeepsPorts g.inputs g.above a b ∧ SparesPorts g.inputs g.below a b) ∧
      KeepsPorts g.outputs g.below a b ∧ SparesPorts g.outputs g.above a b := by
  rw [checkMerge, bind_eq_ok_iff]
  constructor
  · rintro ⟨nodeA, hA, h⟩
    rw [bind_eq_ok_iff] at h
    obtain ⟨nodeB, hB, h⟩ := h
    rw [if_neg hab, bind_eq_ok_iff] at h
    obtain ⟨_, hin, hout⟩ := h
    rw [find_eq_ok_iff] at hA hB
    exact ⟨contains_iff.2 ⟨nodeA, hA⟩, contains_iff.2 ⟨nodeB, hB⟩,
      (checkMergeInputs_eq_ok_iff hA hB).1 hin, (checkMergeOutputs_eq_ok_iff hA hB).1 hout⟩
  · rintro ⟨ha, hb, hin, hout⟩
    obtain ⟨nodeA, hA⟩ := contains_iff.1 ha
    obtain ⟨nodeB, hB⟩ := contains_iff.1 hb
    refine ⟨nodeA, find_eq_ok_iff.2 hA, bind_eq_ok_iff.2 ⟨nodeB, find_eq_ok_iff.2 hB, ?_⟩⟩
    rw [if_neg hab, bind_eq_ok_iff]
    exact ⟨(), (checkMergeInputs_eq_ok_iff hA hB).2 hin, (checkMergeOutputs_eq_ok_iff hA hB).2 hout⟩

theorem contains_of_checkMerge [Words] (hcheck : g.checkMerge a b = .ok ()) :
    g.contains b = true := by
  rw [checkMerge, bind_eq_ok_iff] at hcheck
  obtain ⟨_, -, hcheck⟩ := hcheck
  rw [bind_eq_ok_iff] at hcheck
  obtain ⟨n, hn, -⟩ := hcheck
  exact contains_iff.2 ⟨n, find_eq_ok_iff.1 hn⟩

/-- Nodes that pass the check exist, and the merged node can stay the terminal that either is. -/
theorem keepsPorts_of_checkMerge (hcheck : g.checkMerge a b = .ok ()) (hab : a ≠ b) :
    g.contains a = true ∧ g.contains b = true ∧ KeepsPorts g.inputs g.above a b ∧
      KeepsPorts g.outputs g.below a b := by
  obtain ⟨ha, hb, hin, hout⟩ := (checkMerge_eq_ok_iff hab).1 hcheck
  exact ⟨ha, hb, hin.1, hout.1⟩

/-- Nodes that are no terminals can always be merged. -/
theorem checkMerge_eq_ok (ha : g.contains a = true) (hb : g.contains b = true)
    (hin : a ∉ g.inputs ∧ b ∉ g.inputs) (hout : a ∉ g.outputs ∧ b ∉ g.outputs) :
    g.checkMerge a b = .ok () := by
  by_cases hab : a = b
  · obtain ⟨n, hn⟩ := contains_iff.1 hb
    rw [checkMerge, hab, find_eq_ok_iff.2 hn]
    exact if_pos rfl
  · rw [checkMerge_eq_ok_iff hab]
    have hin' : ¬(a ∈ g.inputs ∨ b ∈ g.inputs) := by tauto
    have hout' : ¬(a ∈ g.outputs ∨ b ∈ g.outputs) := by tauto
    exact ⟨ha, hb, ⟨fun h => absurd h hin', fun h => absurd h hin'⟩,
      fun h => absurd h hout', fun h => absurd h hout'⟩

end Diagram

end Wiring
