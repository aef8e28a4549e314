import Wiring.Proofs.Diagram.Severing
import Wiring.Proofs.Words.Degrees

/-!
# Room in words

New nodes use up ids, and new edges add to degrees. As long as words have room for as many more as
an operation may need, it does the same as with words that hold every number, and leaves room for
what it has not used.

## Main definitions

- `Diagram.Roomy` — words have room for so many more ids, and edges at every node

## Main statements

- `Tally.add_eq` — a count that a word holds
- `Diagram.join_eq`, `Diagram.Coherent.joinAll_eq` — edges whose counts words hold
- `Diagram.Roomy.join`, `Diagram.Roomy.joinAll`, `Diagram.Roomy.attach` — edges and nodes that
  there is room for
-/

namespace Wiring

/-- A count that a word holds is added up as it is. -/
theorem Tally.add_eq [Words] {t : Tally} {k m : Nat} (h : Words.Holds (t.count k + m)) :
    t.add k m = letI := Unlimited.words; t.add k m := by
  unfold add
  by_cases hm : m = 0
  · rw [if_pos hm, if_pos hm]
  · rw [if_neg hm, if_neg hm]
    refine IdMap.ext fun j => ?_
    rw [IdMap.get?_alter, IdMap.get?_alter]
    by_cases hj : j = k
    · rw [if_pos hj, if_pos hj]
      exact congrArg some (Words.wrap_of_holds h)
    · rw [if_neg hj, if_neg hj]

/-- A single neighbour whose count a word holds. -/
theorem Tally.ofList_singleton_eq [Words] {k m : Nat} (h : Words.Holds m) :
    Tally.ofList [(k, m)] = letI := Unlimited.words; Tally.ofList [(k, m)] := by
  have hcount : Words.Holds (Tally.count IdMap.empty k + m) := by
    rwa [show Tally.count IdMap.empty k = 0 from rfl, Nat.zero_add]
  show Tally.add IdMap.empty k m = _
  rw [Tally.add_eq hcount]
  rfl

namespace Diagram

variable [Words] {α : Type} {g h : Diagram α} {i j s t m n : Nat} {label : α} {ps cs : List Nat}
  {es : List (Nat × Nat)}

/-! ## Edges -/

omit [Words] in
theorem updateNode_congr {f f' : Node α → Node α} (h : ∀ n, g.node? i = some n → f n = f' n) :
    g.updateNode i f = g.updateNode i f' := by
  refine ext_of_node? (fun k => ?_) rfl rfl rfl
  rw [node?_updateNode, node?_updateNode]
  cases hi : g.node? i with
  | none => rfl
  | some n => rw [Option.map_some, Option.map_some, h n hi]

/-- **Edges are joined as they are**, if words hold what their ends count afterwards. -/
theorem join_eq
    (hs : Words.Holds (((letI _ := Unlimited.words; g.join s t m).below s).count t))
    (ht : Words.Holds (((letI _ := Unlimited.words; g.join s t m).above t).count s)) :
    g.join s t m = letI := Unlimited.words; g.join s t m := by
  rw [below_join.count_eq, List.count_append] at hs
  rw [above_join.count_eq, List.count_append] at ht
  have hsource : g.updateNode s (·.addChild t m) =
      g.updateNode s fun n => letI := Unlimited.words; n.addChild t m :=
    updateNode_congr fun n hn => by
      rw [if_pos ⟨rfl, contains_iff.2 ⟨n, hn⟩⟩, below_of_node? hn, Tally.count_spread,
        List.count_replicate_self] at hs
      simp only [Node.addChild, Tally.add_eq hs]
  unfold join
  rw [hsource]
  refine updateNode_congr fun n hn => ?_
  have hcontains : g.contains t = true := by
    rw [← contains_updateNode, contains_iff]
    exact ⟨n, hn⟩
  -- the first half may have changed this node already, if `s` is `t`, but not its parents
  have hcount : (g.above t).count s = n.parents.count s := by
    rw [node?_updateNode] at hn
    split at hn
    · rename_i hst
      obtain ⟨n', hn', rfl⟩ := Option.map_eq_some_iff.1 hn
      rw [hst, above_of_node? hn', Tally.count_spread]
      rfl
    · rw [above_of_node? hn, Tally.count_spread]
  rw [if_pos ⟨rfl, hcontains⟩, List.count_replicate_self, hcount] at ht
  simp only [Node.addParent, Tally.add_eq ht]

omit [Words] in
theorem edges_join (hs : g.contains s = true) (u v : Nat) :
    (letI _ := Unlimited.words; g.join s t m).edges u v =
      g.edges u v + if (s, t) = (u, v) then m else 0 := by
  rw [edges, below_join.count_eq, List.count_append, edges]
  by_cases hu : u = s
  · by_cases hv : v = t
    · simp [hu, hv, hs]
    · simp [hu, hs, Ne.symm hv, List.count_replicate]
  · simp [hu, Ne.symm hu]

/-- **Edges are added as they are** to a coherent diagram, if words hold their multiplicities
    afterwards. -/
theorem Coherent.joinAll_eq (hg : g.Coherent)
    (hes : ∀ e ∈ es, g.contains e.1 = true ∧ g.contains e.2 = true)
    (hroom : ∀ e ∈ es, Words.Holds (g.edges e.1 e.2 + es.count e)) :
    g.joinAll es = letI := Unlimited.words; g.joinAll es := by
  induction es generalizing g with
  | nil => rw [joinAll_nil, @joinAll_nil _ Unlimited.words]
  | cons e es ih =>
    obtain ⟨⟨hs, ht⟩, hes⟩ := List.forall_mem_cons.1 hes
    have hnext := hg.join hs ht 1
    have hfirst : Words.Holds ((letI _ := Unlimited.words; g.join e.1 e.2 1).edges e.1 e.2) := by
      rw [edges_join hs, if_pos rfl]
      exact (hroom e List.mem_cons_self).mono (by rw [List.count_cons_self]; omega)
    have hjoin := join_eq hfirst (hnext.edges_eq_above e.1 e.2 ▸ hfirst)
    rw [joinAll_cons, @joinAll_cons _ _ Unlimited.words, hjoin]
    refine ih hnext (fun e' he' => ?_) fun e' he' => ?_
    · rw [← hjoin, contains_join, contains_join]
      exact hes e' he'
    · refine (hroom e' (List.mem_cons_of_mem _ he')).mono (Nat.le_of_eq ?_)
      rw [edges_join hs, List.count_cons, Prod.mk.eta, Prod.mk.eta]
      simp only [beq_iff_eq]
      omega

omit [Words] in
/-- No node has more edges after a node has gone. -/
theorem length_removeNode_le (g : Diagram α) (i k : Nat) :
    ((g.removeNode i).above k).length ≤ (g.above k).length ∧
      ((g.removeNode i).below k).length ≤ (g.below k).length := by
  have hforget (gone n : Node α) : (forget i gone k n).parents.spread.length ≤
      n.parents.spread.length ∧ (forget i gone k n).children.spread.length ≤
        n.children.spread.length := by
    simp only [forget]
    constructor <;> split <;> first
      | exact Nat.le_refl _
      | rw [Tally.spread_erase]; exact List.length_filter_le _ _
  simp only [above, below, node?_removeNode]
  split
  · simp
  · cases g.node? i with
    | none => simp
    | some gone =>
      cases g.node? k with
      | none => simp
      | some n => exact hforget gone n

/-! ## Room -/

/-- **Words have room for `m` more** ids, and for `m` more edges into and out of every node. -/
structure Roomy (g : Diagram α) (m : Nat) : Prop where
  next : Words.Holds (g.nextId + m)
  degree : ∀ k, Words.Holds ((g.above k).length + m) ∧ Words.Holds ((g.below k).length + m)

namespace Roomy

theorem mono (h : g.Roomy m) (hn : n ≤ m) : g.Roomy n where
  next := h.next.mono (Nat.add_le_add_left hn _)
  degree k := ⟨(h.degree k).1.mono (Nat.add_le_add_left hn _),
    (h.degree k).2.mono (Nat.add_le_add_left hn _)⟩

theorem degreesHold (h : g.Roomy m) : g.DegreesHold := fun k _ =>
  ⟨(h.degree k).1.mono (Nat.le_add_right _ _), (h.degree k).2.mono (Nat.le_add_right _ _)⟩

/-- There is room for less where there is less, and for as much as there is less. -/
theorem of_le (hg : g.Roomy m) (hnext : h.nextId + n ≤ g.nextId + m)
    (hdegree : ∀ k, (h.above k).length + n ≤ (g.above k).length + m ∧
      (h.below k).length + n ≤ (g.below k).length + m) : h.Roomy n where
  next := hg.next.mono hnext
  degree k := ⟨(hg.degree k).1.mono (hdegree k).1, (hg.degree k).2.mono (hdegree k).2⟩

/-! ### New edges and nodes -/

theorem join_eq (h : g.Roomy m) (s t : Nat) :
    g.join s t m = letI := Unlimited.words; g.join s t m := by
  -- not even the degrees get larger than what words hold
  have hle {c : Prop} [Decidable c] (l : List Nat) (j k : Nat) :
      (l ++ if c then List.replicate m j else []).count k ≤ l.length + m := by
    refine List.count_le_length.trans ?_
    rw [List.length_append]
    split <;> simp
  apply Diagram.join_eq
  · rw [below_join.count_eq]
    exact (h.degree s).2.mono (hle _ t t)
  · rw [above_join.count_eq]
    exact (h.degree t).1.mono (hle _ s s)

theorem join (h : g.Roomy (m + n)) (s t : Nat) : (g.join s t m).Roomy n := by
  rw [(h.mono (Nat.le_add_right m n)).join_eq]
  refine h.of_le (by show g.nextId + n ≤ _; omega) fun k => ?_
  rw [above_join.length_eq, below_join.length_eq, List.length_append, List.length_append]
  constructor <;> split <;> simp <;> omega

theorem joinAll_eq (h : g.Roomy es.length) :
    g.joinAll es = letI := Unlimited.words; g.joinAll es := by
  induction es generalizing g with
  | nil => rw [joinAll_nil, @joinAll_nil _ Unlimited.words]
  | cons e es ih =>
    rw [List.length_cons, Nat.add_comm] at h
    rw [joinAll_cons, ih (h.join e.1 e.2), (h.mono (Nat.le_add_right _ _)).join_eq,
      @joinAll_cons _ _ Unlimited.words]

theorem joinAll (h : g.Roomy (es.length + n)) : (g.joinAll es).Roomy n := by
  induction es generalizing g with
  | nil => exact h.mono (Nat.le_add_left _ _)
  | cons e es ih =>
    rw [List.length_cons, Nat.add_right_comm, Nat.add_comm _ 1] at h
    exact ih (h.join e.1 e.2)

theorem place (h : g.Roomy (1 + n)) (label : α) : (g.place label).Roomy n := by
  refine h.of_le (by show g.nextId + 1 + n ≤ _; omega) fun k => ?_
  rw [above_place, below_place]
  constructor <;> split <;> simp <;> omega

theorem attach_eq_place (h : Words.Holds (g.nextId + 1)) : g.attach label ps cs =
    ((g.place label).joinAll (ps.map (·, g.nextId))).joinAll (cs.map (g.nextId, ·)) := by
  simp only [attach, Words.wrap_of_holds h]
  rfl

/-- **A new node** needs room for itself and for its edges. -/
theorem attach_eq (h : g.Roomy (1 + ps.length + cs.length)) :
    g.attach label ps cs = letI := Unlimited.words; g.attach label ps cs := by
  have hplace : (g.place label).Roomy ((ps.map (·, g.nextId)).length +
      (cs.map (g.nextId, ·)).length) := by
    rw [List.length_map, List.length_map]
    exact (h.mono (by omega)).place label
  rw [attach_eq_place (h.next.mono (by omega)), hplace.joinAll.joinAll_eq,
    (hplace.mono (Nat.le_add_right _ _)).joinAll_eq]
  rfl

theorem attach (h : g.Roomy (1 + ps.length + cs.length + n)) :
    (g.attach label ps cs).Roomy n := by
  rw [attach_eq_place (h.next.mono (by omega))]
  refine Roomy.joinAll (Roomy.joinAll ((h.mono ?_).place label))
  rw [List.length_map, List.length_map]
  omega

/-! ### Less edges and nodes -/

theorem removeNode (h : g.Roomy m) (i : Nat) : (g.removeNode i).Roomy m :=
  h.of_le (by rw [nextId_removeNode]) fun k =>
    ⟨Nat.add_le_add_right (length_removeNode_le g i k).1 m,
      Nat.add_le_add_right (length_removeNode_le g i k).2 m⟩

theorem removeNodes (h : g.Roomy m) (ids : List Nat) : (g.removeNodes ids).Roomy m := by
  induction ids generalizing g with
  | nil => exact h
  | cons i ids ih => exact ih (h.removeNode i)

theorem cut (h : g.Roomy m) (i j : Nat) : (g.cut i j).Roomy m :=
  h.of_le (Nat.le_refl _) fun k => by
    rw [above_cut, below_cut]
    exact ⟨Nat.add_le_add_right (List.length_filter_le _ _) m,
      Nat.add_le_add_right (List.length_filter_le _ _) m⟩

theorem sever (h : g.Roomy m) (i j : Nat) : (g.sever i j).Roomy m := by
  unfold Diagram.sever
  split
  · exact (h.cut i j).cut j i
  · exact h

end Roomy

end Diagram

end Wiring
