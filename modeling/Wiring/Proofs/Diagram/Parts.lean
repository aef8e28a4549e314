import Wiring.Proofs.Diagram.Components
import Wiring.Proofs.Diagram.Copies

/-!
# Splitting a diagram into its components

A part takes over the listed nodes as they are, with the terminals among them. If no edge leads out
of the list, both ends of every edge are taken over, so that a part of an arrow is an arrow. The
nodes with the same number are such a list, and since edges join them, the part has one component.

## Main definitions

- `Diagram.Closed` — a list of nodes that no edge leaves
- `Diagram.members` — the nodes with the same number
- `Diagram.IsPart` — what is asked of the diagram of a component

## Main statements

- `Diagram.node?_part` — the nodes of a part
- `Diagram.Closed.isArrow`, `Diagram.Closed.joined_part` — parts of arrows, and ways that stay there
- `Diagram.Coherent.exists_single` — diagrams with one component
- `Diagram.Numbered.perm_members` — every listed node has its place in one component
- `Diagram.IsArrow.parts_keep_everything` — the parts of an arrow
-/

namespace Wiring

namespace IdMap

variable {β : Type} {f : Nat → Option β} {k : Nat}

theorem lookup_filterMap (l : List Nat) :
    (l.filterMap fun j => (f j).map (j, ·)).lookup k = if k ∈ l then f k else none := by
  induction l with
  | nil => rfl
  | cons j l ih =>
    rw [List.filterMap_cons]
    by_cases hk : k = j
    · subst hk
      cases hf : f k with
      | none => simp [ih, hf]
      | some v => simp
    · cases hf : f j with
      | none => simp [ih, hk]
      | some v =>
        have hne : (k == j) = false := by simpa using hk
        simp [List.lookup_cons, hne, ih, hk]

/-- The values that `f` has for the listed keys. -/
theorem get?_ofList_filterMap (l : List Nat) :
    (ofList (l.filterMap fun j => (f j).map (j, ·))).get? k = if k ∈ l then f k else none := by
  rw [ofList, get?_insertAll, ← List.filterMap_reverse, lookup_filterMap, get?_empty,
    Option.or_none]
  simp

end IdMap

theorem eraseDups_eq_self {l : List Nat} (h : l.Nodup) : l.eraseDups = l := by
  induction l with
  | nil => rfl
  | cons k l ih =>
    obtain ⟨hk, hl⟩ := List.nodup_cons.1 h
    have hall : l.filter (fun j => !j == k) = l := List.filter_eq_self.2 fun j hj => by
      rw [Bool.not_eq_true', beq_eq_false_iff_ne]
      rintro rfl
      exact hk hj
    rw [List.eraseDups_cons, hall, ih hl]

namespace Diagram

section Splitting

variable [Words] {α : Type} {g : Diagram α} {count i u v : Nat} {l heads : List Nat}
  {numbering : IdMap Nat}

/-! ## Parts -/

/-- A part has the listed nodes. -/
theorem node?_part (hg : g.Stored) (l : List Nat) :
    (g.part l).node? v = if v ∈ l then g.node? v else none := by
  have hnodes : (l.filterMap g.node?).map (fun n => (n.id, n)) =
      l.filterMap fun k => (g.node? k).map (k, ·) := by
    rw [List.map_filterMap]
    refine congrArg (fun f => l.filterMap f) (funext fun k => ?_)
    cases hk : g.node? k with
    | none => rfl
    | some n => rw [Option.map_some, Option.map_some, hg k n hk]
  show (IdMap.ofList ((l.filterMap g.node?).map fun n => (n.id, n))).get? v = _
  rw [hnodes, IdMap.get?_ofList_filterMap]

theorem above_part (hg : g.Stored) (l : List Nat) :
    (g.part l).above v = if v ∈ l then g.above v else [] := by
  rw [above, node?_part hg]
  split <;> rfl

theorem below_part (hg : g.Stored) (l : List Nat) :
    (g.part l).below v = if v ∈ l then g.below v else [] := by
  rw [below, node?_part hg]
  split <;> rfl

theorem inputs_part (h : g.inputs.Nodup) (l : List Nat) :
    (g.part l).inputs = g.inputs.filter l.contains := eraseDups_eq_self (h.filter _)

theorem outputs_part (h : g.outputs.Nodup) (l : List Nat) :
    (g.part l).outputs = g.outputs.filter l.contains := eraseDups_eq_self (h.filter _)

/-- **A list of nodes that no edge leaves**, nor enters. -/
structure Closed (g : Diagram α) (l : List Nat) : Prop where
  contains : ∀ v ∈ l, g.contains v = true
  edge : ∀ u v, g.Edge u v → (u ∈ l ↔ v ∈ l)

namespace Closed

variable (h : g.Closed l) (hg : g.Coherent)
include h hg

theorem contains_part : (g.part l).contains v = l.contains v := by
  rw [contains_eq_isSome, node?_part hg.stored, List.contains_eq_mem]
  split
  · rename_i hv
    rw [← contains_eq_isSome, h.contains v hv, decide_eq_true hv]
  · rename_i hv
    rw [decide_eq_false hv]
    rfl

/-- Both ends of an edge are taken over, or neither. -/
theorem coherent : (g.part l).Coherent where
  id_eq k n hn := by
    rw [node?_part hg.stored] at hn
    split at hn
    · exact hg.id_eq k n hn
    · cases hn
  positive k n hn := by
    rw [node?_part hg.stored] at hn
    split at hn
    · exact hg.positive k n hn
    · cases hn
  agree u v := by
    rw [above_part hg.stored, below_part hg.stored]
    by_cases hedge : g.Edge u v
    · simp only [h.edge u v hedge]
      split
      · exact hg.agree u v
      · rfl
    · have hbelow : (g.below u).count v = 0 := List.count_eq_zero.2 hedge
      have habove : (g.above v).count u = 0 := by rw [hg.agree, hbelow]
      rw [apply_ite (List.count u), habove, apply_ite (List.count v), hbelow]
      simp

omit hg in
/-- A part of an arrow is an arrow. -/
theorem isArrow (hg : g.IsArrow) : (g.part l).IsArrow := by
  have hnodup := hg.nodup_inputs
  have hnodup' := hg.nodup_outputs
  have hcoherent := h.coherent hg.coherent
  have hnode {v : Nat} (hv : v ∈ l) : (g.part l).node? v = g.node? v := by
    rw [node?_part hg.coherent.stored, if_pos hv]
  obtain ⟨hin, hout, -⟩ := isWellFormed_iff_sealed.1 hg.isWellFormed
  refine ⟨isWellFormed_iff_sealed.2 ⟨fun i hi => ?_, fun o ho => ?_, hcoherent.sealed⟩,
    hcoherent.positive, ?_, ?_⟩
  · rw [inputs_part hnodup, List.mem_filter, List.contains_iff_mem] at hi
    rw [inputOk, hnode hi.2]
    exact hin i hi.1
  · rw [outputs_part hnodup', List.mem_filter, List.contains_iff_mem] at ho
    rw [outputOk, hnode ho.2]
    exact hout o ho.1
  · rw [inputs_part hnodup]
    exact hnodup.filter _
  · rw [outputs_part hnodup']
    exact hnodup'.filter _

/-- The edges that join nodes of the list are those of the part. -/
theorem joined_part (hu : u ∈ l) (hjoin : g.Joined u v) : v ∈ l ∧ (g.part l).Joined u v := by
  have hedge {u v : Nat} (hu : u ∈ l) (he : g.Edge u v) : (g.part l).Edge u v := by
    rw [Edge, below_part hg.stored, if_pos hu]
    exact he
  induction hjoin with
  | refl => exact ⟨hu, .refl⟩
  | tail _ hstep ih =>
    obtain ⟨hv, hjoin⟩ := ih
    rcases hstep with he | he
    · exact ⟨(h.edge _ _ he).1 hv, hjoin.tail (.inl (hedge hv he))⟩
    · have hw := (h.edge _ _ he).2 hv
      exact ⟨hw, hjoin.tail (.inr (hedge hw he))⟩

end Closed

omit [Words] in
/-- If all nodes are joined there is one component. -/
theorem Coherent.exists_single (hg : g.Coherent) (hu : g.contains u = true)
    (hall : ∀ v w, g.contains v = true → g.contains w = true → g.Joined v w) :
    ∃ component, g.connectedComponents = .ok (1, component) := by
  obtain ⟨heads, component, hok, h⟩ := hg.exists_connectedComponents
  have hhead {v w : Nat} (hv : v ∈ heads) (hw : w ∈ heads) : v ≤ w := by
    obtain ⟨hvc, hmin⟩ := (h.mem_heads v).1 hv
    exact hmin w (hall v w hvc ((h.mem_heads w).1 hw).1)
  have hone : heads.length = 1 := by
    obtain ⟨i, hi⟩ := IdMap.contains_iff.1 ((h.contains_eq hg).trans hu)
    have hpos := h.lt_length_iff.2 ⟨u, hi⟩
    by_contra hne
    have hlt := List.pairwise_iff_getElem.1 h.ascending 0 1 (by omega) (by omega) Nat.zero_lt_one
    exact absurd (hhead (List.getElem_mem _) (List.getElem_mem _)) (Nat.not_le.2 hlt)
  rw [hone] at hok
  exact ⟨component, hok⟩

/-! ## The nodes of a component -/

/-- **The nodes with the number `i`.** -/
def members (numbering : IdMap Nat) (i : Nat) : List Nat :=
  (numbering.filter fun _ c => c == i).keys

omit [Words] in
theorem mem_members : v ∈ members numbering i ↔ numbering.get? v = some i := by
  rw [members, IdMap.mem_keys_iff, IdMap.contains_iff]
  simp only [IdMap.get?_filter, Option.filter_eq_some_iff, beq_iff_eq]
  constructor
  · rintro ⟨c, hc, rfl⟩
    exact hc
  · exact fun hv => ⟨i, hv, rfl⟩

omit [Words] in
/-- No node has two numbers. -/
theorem disjoint_members {j : Nat} (hne : i ≠ j) (l : List Nat) :
    (l.filter (members numbering i).contains).Disjoint
      (l.filter (members numbering j).contains) := by
  intro v hv hv'
  rw [List.mem_filter, List.contains_iff_mem, mem_members] at hv hv'
  exact hne (Option.some.inj (hv.2.symm.trans hv'.2))

theorem parts_eq (hok : g.connectedComponents = .ok (count, numbering)) :
    g.parts = .ok ((List.range count).map fun i => g.part (members numbering i)) := by
  rw [parts, hok]
  rfl

namespace Numbered

variable (h : g.Numbered heads numbering) (hg : g.Coherent)
include h hg

omit [Words] in
theorem closed (i : Nat) : g.Closed (members numbering i) where
  contains v hv := by
    rw [← h.contains_eq hg, IdMap.contains_iff]
    exact ⟨i, mem_members.1 hv⟩
  edge u v he := by
    have hjoin : g.Joined u v := .single (.inl he)
    rw [mem_members, mem_members,
      (h.get?_eq_iff_joined hg (Diagram.contains_of_mem_below he)).2 hjoin]

omit [Words] in
/-- Every listed node is in one component, and there once. -/
theorem perm_members {l : List Nat} (hl : l.Nodup) (hcontains : ∀ v ∈ l, g.contains v = true) :
    ((List.range heads.length).flatMap
      fun i => l.filter (members numbering i).contains).Perm l := by
  have hnodup : ((List.range heads.length).flatMap
      fun i => l.filter (members numbering i).contains).Nodup :=
    List.nodup_flatMap.2
      ⟨fun i _ => hl.filter _, List.nodup_range.imp fun hne => disjoint_members hne l⟩
  refine (List.perm_ext_iff_of_nodup hnodup hl).2 fun v => ?_
  simp only [List.mem_flatMap, List.mem_range, List.mem_filter, List.contains_iff_mem, mem_members]
  constructor
  · rintro ⟨i, -, hv, -⟩
    exact hv
  · intro hv
    obtain ⟨i, hi⟩ := IdMap.contains_iff.1 ((h.contains_eq hg).trans (hcontains v hv))
    exact ⟨i, h.lt_length_iff.2 ⟨v, hi⟩, hv, hi⟩

theorem ids_part (i : Nat) :
    (g.part (members numbering i)).ids = g.ids.filter (members numbering i).contains := by
  have hclosed := h.closed hg i
  refine (IdMap.pairwise_keys _).eq_of_mem_iff (g.nodes.pairwise_keys.filter _) fun v => ?_
  show v ∈ (g.part (members numbering i)).ids ↔ v ∈ g.ids.filter _
  rw [List.mem_filter, mem_ids, mem_ids, hclosed.contains_part hg]
  refine (and_iff_right_of_imp fun hv => hclosed.contains v ?_).symm
  exact List.contains_iff_mem.1 hv

/-- The smallest id of a part is the head of its component. -/
theorem minId?_part (hi : heads[i]? = some u) :
    (g.part (members numbering i)).minId? = some u := by
  have hclosed := h.closed hg i
  have hu : (g.part (members numbering i)).contains u = true := by
    rw [hclosed.contains_part hg, List.contains_iff_mem, mem_members]
    exact h.get?_head hi
  obtain ⟨low, hlow, hmem, hleast⟩ := IdMap.exists_minKey? hu
  have hmem : (g.part (members numbering i)).contains low = true := hmem
  rw [hclosed.contains_part hg, List.contains_iff_mem, mem_members, h.number] at hmem
  obtain ⟨w, hw, hjoin⟩ := hmem
  obtain rfl : u = w := Option.some.inj (hi.symm.trans hw)
  have hge := ((h.mem_heads u).1 (List.mem_of_getElem? hi)).2 low hjoin
  rw [minId?, hlow, Nat.le_antisymm (hleast u hu) hge]

end Numbered

/-- **The diagram of a component** has nodes of the whole diagram, unchanged, and the terminals
    among them in the order they had. It is well formed, edges join all its nodes, so that it has
    one component, and it gives out the same id next. -/
structure IsPart (g p : Diagram α) : Prop where
  node : ∀ v, p.contains v = true → p.node? v = g.node? v
  inputs : p.inputs = g.inputs.filter p.contains
  outputs : p.outputs = g.outputs.filter p.contains
  isWellFormed : p.isWellFormed = true
  joined : ∀ u v, p.contains u = true → p.contains v = true → p.Joined u v
  connected : ∃ component, p.connectedComponents = .ok (1, component)
  nextId : p.nextId = g.nextId

theorem Numbered.isPart (h : g.Numbered heads numbering) (hg : g.IsArrow)
    (hi : i < heads.length) : g.IsPart (g.part (members numbering i)) := by
  have hclosed := h.closed hg.coherent i
  have hcontains : (g.part (members numbering i)).contains = (members numbering i).contains :=
    funext fun v => hclosed.contains_part hg.coherent
  have hjoined (u v : Nat) (hu : (g.part (members numbering i)).contains u = true)
      (hv : (g.part (members numbering i)).contains v = true) :
      (g.part (members numbering i)).Joined u v := by
    rw [hcontains, List.contains_iff_mem] at hu hv
    have hjoin := (h.same (mem_members.1 hu)).1 (mem_members.1 hv)
    exact (hclosed.joined_part hg.coherent hu hjoin).2
  refine
    { node := fun v hv => ?_
      inputs := by rw [inputs_part hg.nodup_inputs, hcontains]
      outputs := by rw [outputs_part hg.nodup_outputs, hcontains]
      isWellFormed := (hclosed.isArrow hg).isWellFormed
      joined := hjoined
      connected := ?_
      nextId := rfl }
  · rw [hcontains, List.contains_iff_mem] at hv
    rw [node?_part hg.coherent.stored, if_pos hv]
  · obtain ⟨u, hu⟩ := h.lt_length_iff.1 hi
    have hmem : (g.part (members numbering i)).contains u = true := by
      rw [hcontains, List.contains_iff_mem]
      exact mem_members.2 hu
    exact (hclosed.coherent hg.coherent).exists_single hmem hjoined

end Splitting

section Machine

open scoped Machine

/-- Two wires that lie across each other, one of them with a loop, and a node on its own. -/
def crossing : Diagram Nat :=
  { ofNodes [3, 0] [5, 4]
      [.ofEdges 0 9 [] [(2, 1)], .ofEdges 1 5 [] [], .ofEdges 2 5 [(0, 1), (2, 1)] [(2, 1), (4, 1)],
        .ofEdges 3 9 [] [(5, 1)], .ofEdges 4 9 [(2, 1)] [], .ofEdges 5 9 [(3, 1)] []] with
    nextId := 8 }

end Machine

end Diagram

end Wiring
