import Wiring.Proofs.Diagram.Stripping

/-!
# Diagrams put together and cut down

Two diagrams that share no id are put together by uniting their nodes, and each keeps its lists of
neighbours. Nodes that are removed one after the other leave all lists.

## Main definitions

- `Diagram.Unites` — a diagram that holds the nodes of two others
- `Diagram.Beside` — and their terminals

## Main statements

- `Diagram.Unites.above_eq`, `Diagram.Unites.below_eq` — the lists in a united diagram
- `Diagram.inputs_removeNodes_eq`, `Diagram.outputs_removeNodes_eq` — the terminals after removing
  many nodes
- `Diagram.Coherent.above_removeNodes`, `Diagram.Coherent.below_removeNodes` — the lists after
  removing many nodes
-/

namespace Wiring.Diagram

open scoped Unlimited

variable {α : Type} {f g u : Diagram α} {ids : List Nat} {j k : Nat}

theorem contains_eq_false_iff : g.contains k = false ↔ g.node? k = none := by
  rw [contains_eq_isSome, Option.isSome_eq_false_iff, Option.isNone_iff_eq_none]

/-! ## Uniting -/

/-- The nodes of `u` are those of `f` and those of `g`, and no id is used in both. -/
structure Unites (f g u : Diagram α) : Prop where
  nodes : u.nodes = f.nodes.union g.nodes
  apart : ∀ k, f.contains k = true → g.contains k = false

/-- `u` has the terminals of both too, those of `f` first. -/
structure Beside (f g u : Diagram α) : Prop extends Unites f g u where
  inputs : u.inputs = f.inputs ++ g.inputs
  outputs : u.outputs = f.outputs ++ g.outputs
  nextId_left : f.nextId ≤ u.nextId
  nextId_right : g.nextId ≤ u.nextId

namespace Unites

variable (hu : Unites f g u)
include hu

theorem node?_eq (k : Nat) : u.node? k = (g.node? k).or (f.node? k) := by
  rw [node?, hu.nodes, IdMap.get?_union]
  rfl

theorem contains_iff : u.contains k = true ↔ f.contains k = true ∨ g.contains k = true := by
  rw [contains_eq_isSome, hu.node?_eq, Option.isSome_or, Bool.or_eq_true, or_comm]
  rfl

theorem apart_right (k : Nat) (hk : g.contains k = true) : f.contains k = false :=
  Bool.eq_false_iff.2 fun hf => by
    rw [hu.apart k hf] at hk
    cases hk

theorem node?_left (hk : f.contains k = true) : u.node? k = f.node? k := by
  rw [hu.node?_eq, contains_eq_false_iff.1 (hu.apart k hk), Option.none_or]

theorem node?_right (hk : f.contains k = false) : u.node? k = g.node? k := by
  rw [hu.node?_eq, contains_eq_false_iff.1 hk, Option.or_none]

/-- Neither of the two comes first. -/
theorem symm : Unites g f u where
  nodes := IdMap.ext fun k => by
    rw [IdMap.get?_union]
    show u.node? k = (f.node? k).or (g.node? k)
    cases hk : f.contains k with
    | true =>
      obtain ⟨n, hn⟩ := Diagram.contains_iff.1 hk
      rw [hu.node?_left hk, hn, Option.some_or]
    | false => rw [hu.node?_right hk, contains_eq_false_iff.1 hk, Option.none_or]
  apart := hu.apart_right

/-- Only one of the two lists has anything to offer. -/
theorem above_eq (k : Nat) : u.above k = f.above k ++ g.above k := by
  cases hk : f.contains k with
  | true => rw [above, hu.node?_left hk, above_eq_nil (hu.apart k hk), List.append_nil, above]
  | false => rw [above, hu.node?_right hk, above_eq_nil hk, List.nil_append, above]

theorem below_eq (k : Nat) : u.below k = f.below k ++ g.below k := by
  cases hk : f.contains k with
  | true => rw [below, hu.node?_left hk, below_eq_nil (hu.apart k hk), List.append_nil, below]
  | false => rw [below, hu.node?_right hk, below_eq_nil hk, List.nil_append, below]

theorem above_left (hk : f.contains k = true) : u.above k = f.above k := by
  rw [hu.above_eq, above_eq_nil (hu.apart k hk), List.append_nil]

theorem below_left (hk : f.contains k = true) : u.below k = f.below k := by
  rw [hu.below_eq, below_eq_nil (hu.apart k hk), List.append_nil]

theorem label?_left (hk : f.contains k = true) : u.label? k = f.label? k := by
  rw [label?, hu.node?_left hk, label?]

/-- Ids of nodes on the one side are no ids of nodes on the other. -/
theorem nodup_append {l l' : List Nat} (hl : l.Nodup) (hl' : l'.Nodup)
    (hf : ∀ k ∈ l, f.contains k = true) (hg : ∀ k ∈ l', g.contains k = true) :
    (l ++ l').Nodup := by
  refine List.nodup_append.2 ⟨hl, hl', ?_⟩
  rintro x hx y hy rfl
  have hcg := hg x hy
  rw [hu.apart x (hf x hx)] at hcg
  cases hcg

/-- Every label is the label of a node on one of the two sides. -/
theorem label?_cases {label : α} (hl : u.label? k = some label) :
    (f.contains k = true ∧ f.label? k = some label) ∨
      (g.contains k = true ∧ g.label? k = some label) := by
  rcases hu.contains_iff.1 (contains_iff_label?.2 ⟨label, hl⟩) with hk | hk
  · exact .inl ⟨hk, hu.label?_left hk ▸ hl⟩
  · exact .inr ⟨hk, hu.symm.label?_left hk ▸ hl⟩

theorem coherent (hf : f.Coherent) (hg : g.Coherent) : u.Coherent where
  id_eq k n hn := by
    rw [hu.node?_eq, Option.or_eq_some_iff] at hn
    rcases hn with hn | ⟨-, hn⟩
    · exact hg.id_eq k n hn
    · exact hf.id_eq k n hn
  positive k n hn := by
    rw [hu.node?_eq, Option.or_eq_some_iff] at hn
    rcases hn with hn | ⟨-, hn⟩
    · exact hg.positive k n hn
    · exact hf.positive k n hn
  agree i j := by
    rw [hu.above_eq, hu.below_eq, List.count_append, List.count_append, hf.agree, hg.agree]

theorem acyclic (hf : f.Acyclic) (hg : g.Acyclic) (hcf : f.Coherent) (hcg : g.Coherent) :
    u.Acyclic := by
  obtain ⟨rf, hrf⟩ := hf
  obtain ⟨rg, hrg⟩ := hg
  refine ⟨fun k => if f.contains k = true then rf k else rg k, ?_⟩
  intro i j hi
  rw [hu.above_eq, List.mem_append] at hi
  rcases hi with hi | hi
  · simp only [hcf.contains_of_mem_above hi, Diagram.contains_of_mem_above hi, if_true]
    exact hrf i j hi
  · simp only [hu.apart_right i (hcg.contains_of_mem_above hi),
      hu.apart_right j (Diagram.contains_of_mem_above hi), Bool.false_eq_true, if_false]
    exact hrg i j hi

end Unites

theorem Beside.idsBelow (hb : Beside f g u) (hf : f.IdsBelow) (hg : g.IdsBelow) : u.IdsBelow := by
  intro k hk
  rcases hb.contains_iff.1 hk with hk | hk
  · exact Nat.lt_of_lt_of_le (hf k hk) hb.nextId_left
  · exact Nat.lt_of_lt_of_le (hg k hk) hb.nextId_right

/-! ## Removing many nodes -/

theorem removeNodes_cons (i : Nat) (ids : List Nat) :
    g.removeNodes (i :: ids) = (g.removeNode i).removeNodes ids := rfl

theorem contains_removeNodes :
    (g.removeNodes ids).contains j = (g.contains j && !ids.contains j) := by
  induction ids generalizing g with
  | nil => simp [removeNodes]
  | cons i ids ih =>
    rw [removeNodes_cons, ih, contains_removeNode, List.contains_cons, Bool.not_or, Bool.and_assoc]
    rfl

theorem label?_removeNodes :
    (g.removeNodes ids).label? j = if j ∈ ids then none else g.label? j := by
  induction ids generalizing g with
  | nil => rfl
  | cons i ids ih =>
    rw [removeNodes_cons, ih, label?_removeNode]
    by_cases hj : j = i <;> by_cases hmem : j ∈ ids <;> simp [hj, hmem]

@[simp] theorem nextId_removeNodes : (g.removeNodes ids).nextId = g.nextId := by
  induction ids generalizing g with
  | nil => rfl
  | cons i ids ih => rw [removeNodes_cons, ih, nextId_removeNode]

/-- What is struck out of a list of terminals at once is struck out one by one. -/
theorem filter_removeNode (g : Diagram α) (i : Nat) (ids l : List Nat) :
    (if g.contains i = true then l.filter (· != i) else l).filter
        (fun j => !((g.removeNode i).contains j && ids.contains j)) =
      l.filter fun j => !(g.contains j && (i :: ids).contains j) := by
  have hkept (j : Nat) : (!((g.removeNode i).contains j && ids.contains j) &&
      !(g.contains i && j == i)) = !(g.contains j && (i :: ids).contains j) := by
    rw [contains_removeNode, List.contains_cons, bne]
    cases hj : j == i with
    | true =>
      obtain rfl := beq_iff_eq.1 hj
      cases g.contains j <;> rfl
    | false => simp
  cases hi : g.contains i with
  | true =>
    rw [if_pos rfl, List.filter_filter]
    refine List.filter_congr fun j _ => (congrArg _ ?_).trans (hkept j)
    rw [hi, Bool.true_and, bne]
  | false =>
    rw [if_neg Bool.false_ne_true]
    refine List.filter_congr fun j _ => Eq.trans ?_ (hkept j)
    rw [hi, Bool.false_and, Bool.not_false, Bool.and_true]

/-- An input that names no node stays, listed for removal or not. -/
theorem inputs_removeNodes_eq (g : Diagram α) (ids : List Nat) : (g.removeNodes ids).inputs =
    g.inputs.filter fun i => !(g.contains i && ids.contains i) := by
  induction ids generalizing g with
  | nil => simp [removeNodes]
  | cons i ids ih => rw [removeNodes_cons, ih, inputs_removeNode_eq, filter_removeNode]

theorem outputs_removeNodes_eq (g : Diagram α) (ids : List Nat) : (g.removeNodes ids).outputs =
    g.outputs.filter fun i => !(g.contains i && ids.contains i) := by
  induction ids generalizing g with
  | nil => simp [removeNodes]
  | cons i ids ih => rw [removeNodes_cons, ih, outputs_removeNode_eq, filter_removeNode]

theorem inputs_removeNodes (h : ∀ i ∈ ids, i ∉ g.inputs) :
    (g.removeNodes ids).inputs = g.inputs := by
  rw [inputs_removeNodes_eq, List.filter_eq_self]
  intro i hi
  have hkept : i ∉ ids := fun hmem => h i hmem hi
  simp [hkept]

theorem outputs_removeNodes (h : ∀ i ∈ ids, i ∉ g.outputs) :
    (g.removeNodes ids).outputs = g.outputs := by
  rw [outputs_removeNodes_eq, List.filter_eq_self]
  intro i hi
  have hkept : i ∉ ids := fun hmem => h i hmem hi
  simp [hkept]

namespace Coherent

theorem removeNodes (hg : g.Coherent) (ids : List Nat) : (g.removeNodes ids).Coherent := by
  induction ids generalizing g with
  | nil => exact hg
  | cons i ids ih => exact ih (hg.removeNode i)

theorem above_removeNodes (hg : g.Coherent) (ids : List Nat) : (g.removeNodes ids).above j =
    if j ∈ ids then [] else (g.above j).filter (!ids.contains ·) := by
  induction ids generalizing g with
  | nil => simp [Diagram.removeNodes]
  | cons i ids ih =>
    rw [removeNodes_cons, ih (hg.removeNode i), hg.above_removeNode]
    by_cases hj : j = i
    · simp [hj]
    · simp only [List.mem_cons, hj, false_or, if_false, List.filter_filter, List.contains_cons,
        Bool.not_or]
      refine if_congr Iff.rfl rfl (List.filter_congr ?_)
      intro p _
      rw [Bool.and_comm]
      rfl

theorem below_removeNodes (hg : g.Coherent) (ids : List Nat) : (g.removeNodes ids).below j =
    if j ∈ ids then [] else (g.below j).filter (!ids.contains ·) := by
  induction ids generalizing g with
  | nil => simp [Diagram.removeNodes]
  | cons i ids ih =>
    rw [removeNodes_cons, ih (hg.removeNode i), hg.below_removeNode]
    by_cases hj : j = i
    · simp [hj]
    · simp only [List.mem_cons, hj, false_or, if_false, List.filter_filter, List.contains_cons,
        Bool.not_or]
      refine if_congr Iff.rfl rfl (List.filter_congr ?_)
      intro c _
      rw [Bool.and_comm]
      rfl

end Coherent

end Wiring.Diagram
