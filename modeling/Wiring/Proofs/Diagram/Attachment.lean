import Wiring.Proofs.Diagram.Neighbours

/-!
# Neighbour lists in diagrams that grow

Joining adds occurrences to two lists. Attaching a node puts the next id into the lists of its
neighbours and starts two lists of its own. Attaching many nodes one after the other is described
for old nodes by how many new neighbours they get and for new nodes by what they were attached to.

## Main definitions

- `Diagram.place` — a new node without edges
- `Diagram.attachAll` — new nodes with one label, attached one after the other

## Main statements

- `Diagram.above_joinAll`, `Diagram.below_joinAll` — the lists after joining
- `Diagram.above_attach`, `Diagram.below_attach` — the lists after attaching a node
- `Diagram.above_attachAll`, `Diagram.attachAll_new` — old and new nodes after attaching many
-/

namespace Wiring.Diagram

open scoped Unlimited

variable {α : Type} {g : Diagram α} {i j k s t m : Nat} {label : α} {ps cs : List Nat}
  {ends : List (List Nat × List Nat)}

/-! ## Joining -/

theorem above_join : ((g.join s t m).above j).Perm
    (g.above j ++ if j = t ∧ g.contains j = true then List.replicate m s else []) := by
  rw [above, node?_join]
  cases hn : g.node? j with
  | none => simp [above, hn, contains_eq_isSome]
  | some n =>
    rw [above_of_node? hn, Option.map_some, Option.elim_some, contains_eq_isSome, hn]
    have hset : (if j = s then n.addChild t m else n).parents = n.parents := by
      split <;> rfl
    by_cases ht : j = t
    · simpa [ht, Node.addParent, ht ▸ hset] using Tally.spread_add n.parents s m
    · simp [ht, hset]

theorem below_join : ((g.join s t m).below j).Perm
    (g.below j ++ if j = s ∧ g.contains j = true then List.replicate m t else []) := by
  rw [below, node?_join]
  cases hn : g.node? j with
  | none => simp [below, hn, contains_eq_isSome]
  | some n =>
    rw [below_of_node? hn, Option.map_some, Option.elim_some, contains_eq_isSome, hn]
    have hset (n : Node α) : (if j = t then n.addParent s m else n).children = n.children := by
      split <;> rfl
    by_cases hs : j = s
    · simpa [hs, hset, Node.addChild, hs ▸ hset] using Tally.spread_add n.children t m
    · simp [hs, hset]

theorem label?_join [Words] : (g.join s t m).label? j = g.label? j := by
  rw [label?, label?, node?_join]
  cases g.node? j with
  | none => rfl
  | some n =>
    simp only [Option.map_some]
    split <;> split <;> rfl

theorem joinAll_nil [Words] (g : Diagram α) : g.joinAll [] = g := rfl

theorem joinAll_cons [Words] (e : Nat × Nat) (es : List (Nat × Nat)) :
    g.joinAll (e :: es) = (g.join e.1 e.2 1).joinAll es := rfl

@[simp] theorem contains_joinAll [Words] (es : List (Nat × Nat)) :
    (g.joinAll es).contains j = g.contains j := by
  induction es generalizing g with
  | nil => rfl
  | cons e es ih => exact ih.trans contains_join

@[simp] theorem label?_joinAll [Words] (es : List (Nat × Nat)) :
    (g.joinAll es).label? j = g.label? j := by
  induction es generalizing g with
  | nil => rfl
  | cons e es ih => exact ih.trans label?_join

@[simp] theorem inputs_joinAll [Words] (es : List (Nat × Nat)) :
    (g.joinAll es).inputs = g.inputs := by
  induction es generalizing g with
  | nil => rfl
  | cons e es ih => exact ih

@[simp] theorem outputs_joinAll [Words] (es : List (Nat × Nat)) :
    (g.joinAll es).outputs = g.outputs := by
  induction es generalizing g with
  | nil => rfl
  | cons e es ih => exact ih

@[simp] theorem nextId_joinAll [Words] (es : List (Nat × Nat)) :
    (g.joinAll es).nextId = g.nextId := by
  induction es generalizing g with
  | nil => rfl
  | cons e es ih => exact ih

/-- A node that is there gets the source of every new edge into it. -/
theorem above_joinAll (es : List (Nat × Nat)) (hj : g.contains j = true) :
    ((g.joinAll es).above j).Perm (g.above j ++ (es.filter (·.2 == j)).map (·.1)) := by
  induction es generalizing g with
  | nil => simp [joinAll]
  | cons e es ih =>
    obtain ⟨s, t⟩ := e
    rw [joinAll_cons]
    refine (ih (by rw [contains_join]; exact hj)).trans ?_
    refine (above_join.append_right _).trans ?_
    by_cases ht : t = j
    · simp [ht, hj]
    · simp [ht, Ne.symm ht]

/-- A node that is there gets the target of every new edge out of it. -/
theorem below_joinAll (es : List (Nat × Nat)) (hj : g.contains j = true) :
    ((g.joinAll es).below j).Perm (g.below j ++ (es.filter (·.1 == j)).map (·.2)) := by
  induction es generalizing g with
  | nil => simp [joinAll]
  | cons e es ih =>
    obtain ⟨s, t⟩ := e
    rw [joinAll_cons]
    refine (ih (by rw [contains_join]; exact hj)).trans ?_
    refine (below_join.append_right _).trans ?_
    by_cases hs : s = j
    · simp [hs, hj]
    · simp [hs, Ne.symm hs]

theorem positive_join (hg : g.Coherent) {n : Node α} (h : (g.join s t m).node? k = some n) :
    n.id = k ∧ n.parents.Positive ∧ n.children.Positive := by
  rw [node?_join] at h
  obtain ⟨n', hn', rfl⟩ := Option.map_eq_some_iff.1 h
  obtain ⟨hp, hc⟩ := hg.positive k n' hn'
  have hid := hg.id_eq k n' hn'
  dsimp only
  split <;> split
  · exact ⟨hid, hp.add s m, hc.add t m⟩
  · exact ⟨hid, hp.add s m, hc⟩
  · exact ⟨hid, hp, hc.add t m⟩
  · exact ⟨hid, hp, hc⟩

/-- Joined nodes count the new edges alike. -/
theorem agree_join (hagree : ∀ u v, (g.above v).count u = (g.below u).count v)
    (hs : g.contains s = true) (ht : g.contains t = true) (m u v : Nat) :
    ((g.join s t m).above v).count u = ((g.join s t m).below u).count v := by
  rw [above_join.count_eq, below_join.count_eq, List.count_append, List.count_append, hagree]
  by_cases hu : u = s
  · by_cases hv : v = t
    · simp [hu, hv, hs, ht]
    · simp [hu, hv, hs, List.count_replicate, Ne.symm hv]
  · by_cases hv : v = t
    · simp [hu, hv, ht, List.count_replicate, Ne.symm hu]
    · simp [hu, hv]

theorem Coherent.join (hg : g.Coherent) (hs : g.contains s = true) (ht : g.contains t = true)
    (m : Nat) : (g.join s t m).Coherent where
  id_eq _ _ h := (positive_join hg h).1
  positive _ _ h := (positive_join hg h).2
  agree := agree_join hg.agree hs ht m

/-- What joining any two nodes keeps, joining many keeps. -/
theorem joinAll_induction (P : Diagram α → Prop)
    (hjoin : ∀ h s t, h.contains s = true → h.contains t = true → P h → P (h.join s t 1))
    {es : List (Nat × Nat)} (hes : ∀ e ∈ es, g.contains e.1 = true ∧ g.contains e.2 = true)
    (hg : P g) : P (g.joinAll es) := by
  induction es generalizing g with
  | nil => exact hg
  | cons e es ih =>
    obtain ⟨hs, ht⟩ := hes e List.mem_cons_self
    refine ih (fun e' he' => ?_) (hjoin g e.1 e.2 hs ht hg)
    rw [contains_join, contains_join]
    exact hes e' (List.mem_cons_of_mem _ he')

theorem Coherent.joinAll (hg : g.Coherent) {es : List (Nat × Nat)}
    (h : ∀ e ∈ es, g.contains e.1 = true ∧ g.contains e.2 = true) : (g.joinAll es).Coherent :=
  joinAll_induction Coherent (fun _ _ _ hs ht hg => hg.join hs ht 1) h hg

/-! ## Attaching a node -/

/-- The diagram with a new node that has no edges. -/
def place (g : Diagram α) (label : α) : Diagram α :=
  { g with nodes := g.nodes.insert g.nextId (.isolated g.nextId label), nextId := g.nextId + 1 }

theorem attach_eq : g.attach label ps cs =
    ((g.place label).joinAll (ps.map (·, g.nextId))).joinAll (cs.map (g.nextId, ·)) := rfl

theorem node?_place : (g.place label).node? j =
    if j = g.nextId then some (.isolated g.nextId label) else g.node? j :=
  IdMap.get?_insert

theorem contains_place : (g.place label).contains j = (g.contains j || j == g.nextId) := by
  rw [contains_eq_isSome, contains_eq_isSome, node?_place]
  by_cases hj : j = g.nextId <;> simp [hj]

theorem above_place :
    (g.place label).above j = if j = g.nextId then [] else g.above j := by
  rw [above, above, node?_place]
  split <;> rfl

theorem below_place :
    (g.place label).below j = if j = g.nextId then [] else g.below j := by
  rw [below, below, node?_place]
  split <;> rfl

/-- A new node counts no edges, and nobody counts an edge that it has. -/
theorem agree_place (hagree : ∀ u v, (g.above v).count u = (g.below u).count v)
    (hnew : g.contains g.nextId = false) (u v : Nat) :
    ((g.place label).above v).count u = ((g.place label).below u).count v := by
  have hu : u = g.nextId → (g.above v).count u = 0 := fun hu => by
    rw [hagree, hu, below_eq_nil hnew, List.count_nil]
  have hv : v = g.nextId → (g.below u).count v = 0 := fun hv => by
    rw [← hagree, hv, above_eq_nil hnew, List.count_nil]
  rw [above_place, below_place]
  by_cases hun : u = g.nextId <;> by_cases hvn : v = g.nextId
  · simp [hun, hvn]
  · rw [if_neg hvn, if_pos hun, List.count_nil, hu hun]
  · rw [if_pos hvn, if_neg hun, List.count_nil, hv hvn]
  · rw [if_neg hvn, if_neg hun, hagree]

theorem Coherent.place (hg : g.Coherent) (hnew : g.contains g.nextId = false) :
    (g.place label).Coherent where
  id_eq k n h := by
    rw [node?_place] at h
    split at h
    · cases h
      exact Eq.symm ‹_›
    · exact hg.id_eq k n h
  positive k n h := by
    rw [node?_place] at h
    split at h
    · cases h
      exact ⟨Tally.positive_empty, Tally.positive_empty⟩
    · exact hg.positive k n h
  agree := agree_place hg.agree hnew

theorem contains_attach [Words] :
    (g.attach label ps cs).contains j = (g.contains j || j == g.nextId) := by
  unfold attach
  rw [contains_joinAll, contains_joinAll]
  show (g.place label).contains j = _
  rw [contains_place]

theorem label?_attach [Words] : (g.attach label ps cs).label? j =
    if j = g.nextId then some label else g.label? j := by
  unfold attach
  rw [label?_joinAll, label?_joinAll]
  show ((g.nodes.insert g.nextId (.isolated g.nextId label)).get? j).map (·.label) = _
  rw [IdMap.get?_insert]
  split <;> rfl

@[simp] theorem inputs_attach : (g.attach label ps cs).inputs = g.inputs := by
  rw [attach_eq, inputs_joinAll, inputs_joinAll]
  rfl

@[simp] theorem outputs_attach : (g.attach label ps cs).outputs = g.outputs := by
  rw [attach_eq, outputs_joinAll, outputs_joinAll]
  rfl

@[simp] theorem nextId_attach : (g.attach label ps cs).nextId = g.nextId + 1 := by
  rw [attach_eq, nextId_joinAll, nextId_joinAll]
  rfl

/-- The sources of edges `(p, t)`, one for each listed `p`, that lead to `j`. -/
theorem map_filter_into (l : List Nat) (t : Nat) :
    ((l.map (·, t)).filter (·.2 == j)).map (·.1) = if j = t then l else [] := by
  induction l with
  | nil => simp
  | cons p l ih =>
    by_cases hj : j = t
    · rw [if_pos hj] at ih ⊢
      simpa [hj] using hj ▸ ih
    · rw [if_neg hj] at ih ⊢
      simp [Ne.symm hj]

/-- The sources of edges `(s, c)`, one for each listed `c`, that lead to `j`. -/
theorem map_filter_from (l : List Nat) (s : Nat) :
    ((l.map (s, ·)).filter (·.2 == j)).map (·.1) = List.replicate (l.count j) s := by
  induction l with
  | nil => simp
  | cons c l ih =>
    by_cases hc : c = j
    · simp_all [List.replicate_succ]
    · simp_all

theorem map_filter_swap (l : List (Nat × Nat)) :
    (l.filter (·.1 == j)).map (·.2) = ((l.map Prod.swap).filter (·.2 == j)).map (·.1) := by
  induction l with
  | nil => rfl
  | cons e l ih => by_cases he : e.1 = j <;> simp_all

/-- An old node gets the new one as a parent for every time it is listed as a child; the new node
    has the listed parents. -/
theorem above_attach (label : α) (ps cs : List Nat) (hcs : g.nextId ∉ cs)
    (hj : j = g.nextId ∨ g.contains j = true) :
    ((g.attach label ps cs).above j).Perm
      (if j = g.nextId then ps else g.above j ++ List.replicate (cs.count j) g.nextId) := by
  have hplace : (g.place label).contains j = true := by
    rw [contains_place]
    rcases hj with hj | hj <;> simp [hj]
  rw [attach_eq]
  refine (above_joinAll _ (by rw [contains_joinAll]; exact hplace)).trans ?_
  refine ((above_joinAll _ hplace).append_right _).trans ?_
  rw [map_filter_into, map_filter_from, above_place]
  by_cases hn : j = g.nextId
  · simp [hn, List.count_eq_zero.2 hcs]
  · simp [hn]

/-- An old node gets the new one as a child for every time it is listed as a parent; the new node
    has the listed children. -/
theorem below_attach (label : α) (ps cs : List Nat) (hps : g.nextId ∉ ps)
    (hj : j = g.nextId ∨ g.contains j = true) :
    ((g.attach label ps cs).below j).Perm
      (if j = g.nextId then cs else g.below j ++ List.replicate (ps.count j) g.nextId) := by
  have hplace : (g.place label).contains j = true := by
    rw [contains_place]
    rcases hj with hj | hj <;> simp [hj]
  rw [attach_eq]
  refine (below_joinAll _ (by rw [contains_joinAll]; exact hplace)).trans ?_
  refine ((below_joinAll _ hplace).append_right _).trans ?_
  rw [map_filter_swap, map_filter_swap, List.map_map, List.map_map]
  have hswap : (Prod.swap ∘ fun p => (p, g.nextId)) = ((g.nextId, ·) : Nat → Nat × Nat) := rfl
  have hswap' : (Prod.swap ∘ (g.nextId, ·)) = ((·, g.nextId) : Nat → Nat × Nat) := rfl
  rw [hswap, hswap', map_filter_into, map_filter_from, below_place]
  by_cases hn : j = g.nextId
  · simp [hn, List.count_eq_zero.2 hps]
  · simp [hn]

theorem Coherent.attach (hg : g.Coherent) (hnew : g.contains g.nextId = false)
    (hps : ∀ p ∈ ps, g.contains p = true) (hcs : ∀ c ∈ cs, g.contains c = true) :
    (g.attach label ps cs).Coherent := by
  have hself : (g.place label).contains g.nextId = true := by
    rw [contains_place]
    simp
  have hold (j : Nat) (hj : g.contains j = true) : (g.place label).contains j = true := by
    rw [contains_place, hj]
    rfl
  rw [attach_eq]
  refine ((hg.place hnew).joinAll ?_).joinAll ?_
  · intro e he
    obtain ⟨p, hp, rfl⟩ := List.mem_map.1 he
    exact ⟨hold p (hps p hp), hself⟩
  · intro e he
    obtain ⟨c, hc, rfl⟩ := List.mem_map.1 he
    rw [contains_joinAll, contains_joinAll]
    exact ⟨hself, hold c (hcs c hc)⟩

theorem IdsBelow.attach (h : g.IdsBelow) : (g.attach label ps cs).IdsBelow := by
  intro k hk
  rw [contains_attach, Bool.or_eq_true, beq_iff_eq] at hk
  rw [nextId_attach]
  rcases hk with hk | hk
  · have := h k hk
    omega
  · omega

/-! ## Attaching many nodes -/

/-- New nodes with one label, one for each pair of a list of parents and a list of children. -/
def attachAll (g : Diagram α) (label : α) (ends : List (List Nat × List Nat)) : Diagram α :=
  ends.foldl (fun g e => g.attach label e.1 e.2) g

/-- All neighbours that new nodes are to be attached to are in the diagram. -/
def EndsIn (ends : List (List Nat × List Nat)) (g : Diagram α) : Prop :=
  ∀ e ∈ ends, (∀ p ∈ e.1, g.contains p = true) ∧ ∀ c ∈ e.2, g.contains c = true

theorem EndsIn.attach (h : EndsIn ends g) : EndsIn ends (g.attach label ps cs) := by
  intro e he
  constructor
  · intro p hp
    rw [contains_attach, (h e he).1 p hp]
    rfl
  · intro c hc
    rw [contains_attach, (h e he).2 c hc]
    rfl

theorem attachAll_cons (e : List Nat × List Nat) :
    g.attachAll label (e :: ends) = (g.attach label e.1 e.2).attachAll label ends := rfl

theorem attachAll_append (ends' : List (List Nat × List Nat)) :
    g.attachAll label (ends ++ ends') = (g.attachAll label ends).attachAll label ends' :=
  List.foldl_append

@[simp] theorem inputs_attachAll : (g.attachAll label ends).inputs = g.inputs := by
  induction ends generalizing g with
  | nil => rfl
  | cons e ends ih => rw [attachAll_cons, ih, inputs_attach]

@[simp] theorem outputs_attachAll : (g.attachAll label ends).outputs = g.outputs := by
  induction ends generalizing g with
  | nil => rfl
  | cons e ends ih => rw [attachAll_cons, ih, outputs_attach]

@[simp] theorem nextId_attachAll :
    (g.attachAll label ends).nextId = g.nextId + ends.length := by
  induction ends generalizing g with
  | nil => rfl
  | cons e ends ih =>
    rw [attachAll_cons, ih, nextId_attach, List.length_cons]
    omega

theorem contains_attachAll : (g.attachAll label ends).contains j =
    (g.contains j || (decide (g.nextId ≤ j) && decide (j < g.nextId + ends.length))) := by
  induction ends generalizing g with
  | nil =>
    have hno : (decide (g.nextId ≤ j) && decide (j < g.nextId + 0)) = false := by
      rw [Bool.and_eq_false_iff, decide_eq_false_iff_not, decide_eq_false_iff_not]
      omega
    rw [List.length_nil, hno, Bool.or_false]
    rfl
  | cons e ends ih =>
    rw [attachAll_cons, ih, contains_attach, nextId_attach, List.length_cons, Bool.or_assoc]
    congr 1
    rw [Bool.eq_iff_iff]
    simp only [Bool.or_eq_true, beq_iff_eq, Bool.and_eq_true, decide_eq_true_eq]
    omega

theorem label?_attachAll (hj : j < g.nextId) :
    (g.attachAll label ends).label? j = g.label? j := by
  induction ends generalizing g with
  | nil => rfl
  | cons e ends ih =>
    rw [attachAll_cons, ih (by rw [nextId_attach]; omega), label?_attach, if_neg (by omega)]

theorem IdsBelow.attachAll (h : g.IdsBelow) : (g.attachAll label ends).IdsBelow := by
  induction ends generalizing g with
  | nil => exact h
  | cons e ends ih => exact ih h.attach

theorem EndsIn.head {e : List Nat × List Nat} (h : EndsIn (e :: ends) g) :
    (∀ p ∈ e.1, g.contains p = true) ∧ ∀ c ∈ e.2, g.contains c = true :=
  h e List.mem_cons_self

theorem EndsIn.tail {e : List Nat × List Nat} (h : EndsIn (e :: ends) g) : EndsIn ends g :=
  fun e' he' => h e' (List.mem_cons_of_mem _ he')

theorem Coherent.attachAll (hg : g.Coherent) (hids : g.IdsBelow) (h : EndsIn ends g) :
    (g.attachAll label ends).Coherent := by
  induction ends generalizing g with
  | nil => exact hg
  | cons e ends ih =>
    exact ih (hg.attach (hids.not_contains (Nat.le_refl _)) h.head.1 h.head.2) hids.attach
      h.tail.attach

theorem IdsBelow.not_mem (hids : g.IdsBelow) {l : List Nat} (h : ∀ p ∈ l, g.contains p = true) :
    g.nextId ∉ l :=
  fun hmem => absurd (hids _ (h _ hmem)) (Nat.lt_irrefl _)

/-- If one attachment adds the new node to the list `look` once for every time that `j` is picked,
    then many attachments add new nodes to it, as many as `j` is picked. -/
theorem exists_perm_attachAll (look : Diagram α → List Nat) (pick : List Nat × List Nat → List Nat)
    (hone : ∀ (g : Diagram α) (e : List Nat × List Nat), g.IdsBelow → EndsIn [e] g →
      g.contains j = true → (look (g.attach label e.1 e.2)).Perm
        (look g ++ List.replicate ((pick e).count j) g.nextId))
    (hids : g.IdsBelow) (h : EndsIn ends g) (hj : g.contains j = true) :
    ∃ new : List Nat, (∀ i ∈ new, g.nextId ≤ i ∧ i < g.nextId + ends.length) ∧
      new.length = (ends.flatMap pick).count j ∧
      (look (g.attachAll label ends)).Perm (look g ++ new) := by
  induction ends generalizing g with
  | nil => exact ⟨[], by simp, by simp, by simp [attachAll]⟩
  | cons e ends ih =>
    obtain ⟨new, hnew, hlen, hperm⟩ :=
      ih (g := g.attach label e.1 e.2) hids.attach h.tail.attach
        (by rw [contains_attach, hj]; rfl)
    have hfirst := hone g e hids (fun e' he' => List.mem_singleton.1 he' ▸ h.head) hj
    refine ⟨List.replicate ((pick e).count j) g.nextId ++ new, ?_, ?_, ?_⟩
    · intro i hi
      rw [List.length_cons]
      rcases List.mem_append.1 hi with hi | hi
      · have := List.eq_of_mem_replicate hi
        omega
      · have := hnew i hi
        rw [nextId_attach] at this
        omega
    · rw [List.length_append, List.length_replicate, hlen, List.flatMap_cons, List.count_append]
    · rw [attachAll_cons, ← List.append_assoc]
      exact hperm.trans (hfirst.append_right new)

/-- An old node gets a new parent for every time it is listed as a child. -/
theorem above_attachAll (label : α) (hids : g.IdsBelow) (h : EndsIn ends g)
    (hj : g.contains j = true) :
    ∃ new : List Nat, (∀ i ∈ new, g.nextId ≤ i ∧ i < g.nextId + ends.length) ∧
      new.length = (ends.flatMap (·.2)).count j ∧
      ((g.attachAll label ends).above j).Perm (g.above j ++ new) := by
  refine exists_perm_attachAll (·.above j) (·.2) (fun g e hids h hj => ?_) hids h hj
  have := above_attach label e.1 e.2 (hids.not_mem h.head.2) (.inr hj)
  rwa [if_neg (Nat.ne_of_lt (hids j hj))] at this

/-- An old node gets a new child for every time it is listed as a parent. -/
theorem below_attachAll (label : α) (hids : g.IdsBelow) (h : EndsIn ends g)
    (hj : g.contains j = true) :
    ∃ new : List Nat, (∀ i ∈ new, g.nextId ≤ i ∧ i < g.nextId + ends.length) ∧
      new.length = (ends.flatMap (·.1)).count j ∧
      ((g.attachAll label ends).below j).Perm (g.below j ++ new) := by
  refine exists_perm_attachAll (·.below j) (·.1) (fun g e hids h hj => ?_) hids h hj
  have := below_attach label e.1 e.2 (hids.not_mem h.head.1) (.inr hj)
  rwa [if_neg (Nat.ne_of_lt (hids j hj))] at this

/-- A new node has the label and one of the listed pairs for its neighbours. -/
theorem attachAll_new (label : α) (hids : g.IdsBelow) (h : EndsIn ends g)
    (hj : g.nextId ≤ j)
    (hj' : j < g.nextId + ends.length) :
    ∃ e ∈ ends, (g.attachAll label ends).label? j = some label ∧
      ((g.attachAll label ends).above j).Perm e.1 ∧
      ((g.attachAll label ends).below j).Perm e.2 := by
  induction ends generalizing g with
  | nil => simp at hj'; omega
  | cons e ends ih =>
    rw [attachAll_cons]
    by_cases hjn : j = g.nextId
    -- the node that is attached first is no neighbour of those that come after it
    · have hc : (g.attach label e.1 e.2).contains j = true := by
        rw [contains_attach]
        simp [hjn]
      have hnot : j ∉ ends.flatMap (·.1) ∧ j ∉ ends.flatMap (·.2) := by
        rw [List.mem_flatMap, List.mem_flatMap]
        constructor
        · rintro ⟨e', he', hmem⟩
          exact hids.not_mem (h.tail e' he').1 (hjn ▸ hmem)
        · rintro ⟨e', he', hmem⟩
          exact hids.not_mem (h.tail e' he').2 (hjn ▸ hmem)
      obtain ⟨up, -, hlen, hup⟩ :=
        above_attachAll label hids.attach h.tail.attach hc
      obtain ⟨down, -, hlen', hdown⟩ :=
        below_attachAll label hids.attach h.tail.attach hc
      rw [List.count_eq_zero.2 hnot.2, List.length_eq_zero_iff] at hlen
      rw [List.count_eq_zero.2 hnot.1, List.length_eq_zero_iff] at hlen'
      subst hlen
      subst hlen'
      rw [List.append_nil] at hup hdown
      have habove := above_attach label e.1 e.2 (hids.not_mem h.head.2) (.inl hjn)
      have hbelow := below_attach label e.1 e.2 (hids.not_mem h.head.1) (.inl hjn)
      rw [if_pos hjn] at habove hbelow
      refine ⟨e, List.mem_cons_self, ?_, hup.trans habove, hdown.trans hbelow⟩
      rw [label?_attachAll (by rw [nextId_attach]; omega), label?_attach, if_pos hjn]
    · obtain ⟨e', he', hrest⟩ := ih (g := g.attach label e.1 e.2) hids.attach h.tail.attach
        (by rw [nextId_attach]; omega)
        (by rw [nextId_attach]; rw [List.length_cons] at hj'; omega)
      exact ⟨e', List.mem_cons_of_mem _ he', hrest⟩

end Wiring.Diagram
