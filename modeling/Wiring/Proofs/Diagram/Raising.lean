import Wiring.Diagram.DeadEnds
import Wiring.Proofs.Diagram.Copies
import Wiring.Proofs.IdMap.Raising

/-!
# Diagrams under raised ids

Raising every id of a diagram by the same distance commutes with looking into it and with changing
it, if the ids that are asked for or changed are raised too. Raising keeps the key of every node and
the id it goes by at the same distance, so that nothing need be known of the diagram; on diagrams
that store nodes under their own ids it is what `Diagram.shift` does.

## Main definitions

- `Diagram.raise` — every id raised, the keys of nodes included

## Main statements

- `Diagram.Stored.shift_eq` — raising is shifting
- `Diagram.node?_raise`, `Diagram.find_raise` — lookups
- `Diagram.relabel_raise`, `Diagram.sever_raise`, `Diagram.attach_raise`,
  `Diagram.removeNodes_raise` — changes
- `Diagram.Stored.attach`, `Diagram.Stored.removeNodes` — changes keep nodes under their own ids
-/

namespace Wiring

open scoped Unlimited

/-- The fault with its ids raised. -/
def Fault.shift (d : Nat) : Fault → Fault
  | .unknownNode id => .unknownNode (id + d)
  | .terminal id rule => .terminal (id + d) rule
  | .unresolved output => .unresolved (output + d)
  | .dangling id => .dangling (id + d)
  | fault => fault

/-! ## Answers -/

/-- **An answer with its ids raised**: those in the answer by `r`, those in a fault by `d`. -/
def raiseAnswer {β γ : Type} (d : Nat) (r : β → γ) : Except Fault β → Except Fault γ
  | .ok b => .ok (r b)
  | .error fault => .error (fault.shift d)

section Answers

variable {β γ δ ε : Type} {d : Nat} {r : β → γ} {r' : δ → ε}

/-- Questions asked in turn. -/
theorem raiseAnswer_bind {x : Except Fault β} {f : β → Except Fault δ} {f' : γ → Except Fault ε}
    (h : ∀ b, f' (r b) = raiseAnswer d r' (f b)) :
    (raiseAnswer d r x >>= f') = raiseAnswer d r' (x >>= f) := by
  cases x with
  | ok b => exact h b
  | error fault => rfl

/-- A question asked of every element of a list. -/
theorem raiseAnswer_mapM {f : β → Except Fault δ} {f' : γ → Except Fault ε}
    (h : ∀ b, f' (r b) = raiseAnswer d r' (f b)) (l : List β) :
    (l.map r).mapM f' = raiseAnswer d (List.map r') (l.mapM f) := by
  induction l with
  | nil => rfl
  | cons b l ih =>
    rw [List.map_cons, List.mapM_cons, List.mapM_cons, h, ih]
    refine raiseAnswer_bind fun e => ?_
    exact raiseAnswer_bind fun es => rfl

end Answers

/-! ## Nodes -/

namespace Node

variable {α : Type} {n : Node α} {d k m : Nat}

@[simp] theorem label_shift : (n.shift d).label = n.label := rfl

@[simp] theorem parents_shift : (n.shift d).parents = n.parents.shift d :=
  Tally.renumber_eq_shift n.parents d

@[simp] theorem children_shift : (n.shift d).children = n.children.shift d :=
  Tally.renumber_eq_shift n.children d

theorem keys_parents_shift (n : Node α) :
    (n.shift d).parents.keys = n.parents.keys.map (· + d) := by
  rw [parents_shift, IdMap.keys_shift]

theorem keys_children_shift (n : Node α) :
    (n.shift d).children.keys = n.children.keys.map (· + d) := by
  rw [children_shift, IdMap.keys_shift]

@[simp] theorem indegree_shift : (n.shift d).indegree = n.indegree := by
  rw [indegree, parents_shift, Tally.total_shift, indegree]

@[simp] theorem outdegree_shift : (n.shift d).outdegree = n.outdegree := by
  rw [outdegree, children_shift, Tally.total_shift, outdegree]

theorem single?_parents_shift :
    (n.shift d).parents.single? = n.parents.single?.map (· + d) := by
  rw [parents_shift, Tally.single?_shift]

theorem single?_children_shift :
    (n.shift d).children.single? = n.children.single?.map (· + d) := by
  rw [children_shift, Tally.single?_shift]

theorem isolated_shift (k : Nat) (label : α) :
    (isolated k label).shift d = isolated (k + d) label := rfl

theorem addParent_shift : (n.shift d).addParent (k + d) m = (n.addParent k m).shift d := by
  rw [addParent, addParent, shift_eq, shift_eq, Tally.add_shift]

theorem addChild_shift : (n.shift d).addChild (k + d) m = (n.addChild k m).shift d := by
  rw [addChild, addChild, shift_eq, shift_eq, Tally.add_shift]

theorem eraseParent_shift : (n.shift d).eraseParent (k + d) = (n.eraseParent k).shift d := by
  rw [eraseParent, eraseParent, shift_eq, shift_eq, IdMap.erase_shift]

theorem eraseChild_shift : (n.shift d).eraseChild (k + d) = (n.eraseChild k).shift d := by
  rw [eraseChild, eraseChild, shift_eq, shift_eq, IdMap.erase_shift]

end Node

theorem contains_map_add {l : List Nat} {d k : Nat} :
    (l.map (· + d)).contains (k + d) = l.contains k := by
  rw [Bool.eq_iff_iff, List.contains_iff_mem, List.contains_iff_mem,
    List.mem_map_of_injective fun _ _ heq => Nat.add_right_cancel heq]

namespace Diagram

variable {α : Type} {g : Diagram α} {d i j k m s t : Nat} {label : α}

/-- **The diagram with every id raised by `d`.** -/
def raise (d : Nat) (g : Diagram α) : Diagram α where
  nodes := g.nodes.raise d (·.shift d)
  inputs := g.inputs.map (· + d)
  outputs := g.outputs.map (· + d)
  nextId := g.nextId + d

/-- **Raising is shifting**, if nodes are stored under their own ids. -/
theorem Stored.shift_eq (hg : g.Stored) (d : Nat) : g.shift d = g.raise d := by
  have hnodes : (g.shift d).nodes = g.nodes.raise d (·.shift d) := nodes_shift hg
  exact ext_of_node? (fun k => congrArg (IdMap.get? · k) hnodes) inputs_shift outputs_shift
    nextId_shift

/-! ## Lookups -/

@[simp] theorem node?_raise : (g.raise d).node? (k + d) = (g.node? k).map (·.shift d) :=
  IdMap.get?_raise

@[simp] theorem contains_raise : (g.raise d).contains (k + d) = g.contains k := IdMap.contains_raise

@[simp] theorem label?_raise : (g.raise d).label? (k + d) = g.label? k := by
  rw [label?, node?_raise, Option.map_map, label?]
  rfl

@[simp] theorem isInput_raise : (g.raise d).isInput (k + d) = g.isInput k := contains_map_add

@[simp] theorem isOutput_raise : (g.raise d).isOutput (k + d) = g.isOutput k := contains_map_add

@[simp] theorem values_raise : (g.raise d).nodes.values = g.nodes.values.map (·.shift d) :=
  IdMap.values_raise

@[simp] theorem size_raise : (g.raise d).size = g.size := IdMap.size_raise

theorem find_raise : (g.raise d).find (k + d) = raiseAnswer d (·.shift d) (g.find k) := by
  rw [find, find, node?_raise]
  cases g.node? k <;> rfl

theorem fetch_raise : (g.raise d).fetch (k + d) = raiseAnswer d (·.shift d) (g.fetch k) := by
  rw [fetch, fetch, node?_raise]
  cases g.node? k <;> rfl

/-- The first of some ids to have a property. -/
theorem find?_map_add {p p' : Nat → Bool} (h : ∀ k, p' (k + d) = p k) (l : List Nat) :
    (l.map (· + d)).find? p' = (l.find? p).map (· + d) := by
  rw [List.find?_map]
  exact congrArg (fun q => (l.find? q).map (· + d)) (funext h)

theorem checkNeighbours_raise {ps cs : List Nat} :
    (g.raise d).checkNeighbours (ps.map (· + d)) (cs.map (· + d)) =
      raiseAnswer d id (g.checkNeighbours ps cs) := by
  rw [checkNeighbours, checkNeighbours, ← List.map_append,
    find?_map_add (p := fun k => !g.contains k) (by simp),
    find?_map_add (p := fun k => g.isOutput k) (by simp),
    find?_map_add (p := fun k => g.isInput k) (by simp)]
  cases (ps ++ cs).find? fun k => !g.contains k with
  | some k => rfl
  | none =>
    cases ps.find? fun k => g.isOutput k with
    | some k => rfl
    | none => cases cs.find? fun k => g.isInput k <;> rfl

/-! ## Changes -/

theorem updateNode_raise {u u' : Node α → Node α} (h : ∀ n, u' (n.shift d) = (u n).shift d) :
    (g.raise d).updateNode (k + d) u' = (g.updateNode k u).raise d := by
  rw [updateNode, updateNode, raise, raise, IdMap.modify_raise h]

theorem relabel_raise : (g.raise d).relabel (k + d) label = (g.relabel k label).raise d :=
  updateNode_raise fun _ => rfl

theorem join_raise : (g.raise d).join (s + d) (t + d) m = (g.join s t m).raise d := by
  rw [join, join, updateNode_raise fun _ => Node.addChild_shift,
    updateNode_raise fun _ => Node.addParent_shift]

theorem joinAll_raise (es : List (Nat × Nat)) :
    (g.raise d).joinAll (es.map fun e => (e.1 + d, e.2 + d)) = (g.joinAll es).raise d := by
  induction es generalizing g with
  | nil => rfl
  | cons e es ih => rw [List.map_cons, joinAll_cons, join_raise, ih, joinAll_cons]

theorem cut_raise : (g.raise d).cut (s + d) (t + d) = (g.cut s t).raise d := by
  rw [cut, cut, updateNode_raise fun _ => Node.eraseChild_shift,
    updateNode_raise fun _ => Node.eraseParent_shift]

theorem sever_raise : (g.raise d).sever (s + d) (t + d) = (g.sever s t).raise d := by
  rw [sever, sever, contains_raise, contains_raise, cut_raise, cut_raise]
  split <;> rfl

theorem attach_raise {ps cs : List Nat} :
    (g.raise d).attach label (ps.map (· + d)) (cs.map (· + d)) =
      (g.attach label ps cs).raise d := by
  -- the new node stands alone at first, and gets its edges from two lists of pairs
  have hplace : ({ g.raise d with
      nodes := (g.raise d).nodes.insert (g.nextId + d) (.isolated (g.nextId + d) label)
      nextId := g.nextId + d + 1 } : Diagram α) =
      ({ g with
        nodes := g.nodes.insert g.nextId (.isolated g.nextId label)
        nextId := g.nextId + 1 } : Diagram α).raise d := by
    rw [← Node.isolated_shift, raise, raise, IdMap.insert_raise, Nat.add_right_comm]
  have hups : (ps.map (· + d)).map (·, g.nextId + d) =
      (ps.map (·, g.nextId)).map fun e => (e.1 + d, e.2 + d) := by
    rw [List.map_map, List.map_map]
    rfl
  have hdowns : (cs.map (· + d)).map (g.nextId + d, ·) =
      (cs.map (g.nextId, ·)).map fun e => (e.1 + d, e.2 + d) := by
    rw [List.map_map, List.map_map]
    rfl
  show (joinAll (joinAll _ ((ps.map (· + d)).map (·, g.nextId + d)))
    ((cs.map (· + d)).map (g.nextId + d, ·))) = _
  rw [hups, hdowns]
  exact (congrArg (fun h : Diagram α => (h.joinAll _).joinAll _) hplace).trans
    (by rw [joinAll_raise, joinAll_raise]; rfl)

theorem forget_shift {gone n : Node α} :
    forget (i + d) (gone.shift d) (k + d) (n.shift d) = (forget i gone k n).shift d := by
  have hparents : (gone.shift d).parents.contains (k + d) = gone.parents.contains k := by
    rw [Node.parents_shift, IdMap.contains_shift]
  have hchildren : (gone.shift d).children.contains (k + d) = gone.children.contains k := by
    rw [Node.children_shift, IdMap.contains_shift]
  rw [forget, forget, hparents, hchildren, Node.shift_eq, Node.shift_eq]
  congr 1
  · split
    · exact IdMap.erase_shift
    · rfl
  · split
    · exact IdMap.erase_shift
    · rfl

theorem filter_bne_map_add (l : List Nat) (k d : Nat) :
    (l.map (· + d)).filter (· != k + d) = (l.filter (· != k)).map (· + d) := by
  rw [List.filter_map]
  refine congrArg (List.map (· + d)) (List.filter_congr fun j _ => ?_)
  show (j + d != k + d) = (j != k)
  rw [Bool.eq_iff_iff, bne_iff_ne, bne_iff_ne, ne_eq, ne_eq, Nat.add_right_cancel_iff]

theorem removeNode_raise : (g.raise d).removeNode (k + d) = (g.removeNode k).raise d := by
  rw [removeNode, removeNode, node?_raise]
  cases g.node? k with
  | none => rfl
  | some gone =>
    have hnodes : ((g.raise d).nodes.erase (k + d)).map (forget (k + d) (gone.shift d)) =
        ((g.nodes.erase k).map (forget k gone)).raise d (·.shift d) := by
      rw [raise, IdMap.erase_raise]
      exact IdMap.map_raise fun _ _ => forget_shift
    simp only [Option.map_some]
    rw [hnodes, raise, raise, filter_bne_map_add, filter_bne_map_add]

theorem removeNodes_raise (ids : List Nat) :
    (g.raise d).removeNodes (ids.map (· + d)) = (g.removeNodes ids).raise d := by
  induction ids generalizing g with
  | nil => rfl
  | cons i ids ih =>
    show ((g.raise d).removeNode (i + d)).removeNodes _ = _
    rw [removeNode_raise, ih]
    rfl

/-! ## Nodes under their own ids -/

namespace Stored

theorem updateNode (hg : g.Stored) {u : Node α → Node α} (hu : ∀ n, (u n).id = n.id) :
    (g.updateNode k u).Stored := by
  intro j n hn
  rw [node?_updateNode] at hn
  split at hn
  · rename_i hj
    obtain ⟨m, hm, rfl⟩ := Option.map_eq_some_iff.1 hn
    rw [hu, hg k m hm, hj]
  · exact hg j n hn

theorem relabel (hg : g.Stored) (k : Nat) (label : α) : (g.relabel k label).Stored :=
  hg.updateNode fun _ => rfl

theorem join [Words] (hg : g.Stored) (s t m : Nat) : (g.join s t m).Stored := by
  have hsource : (g.updateNode s (·.addChild t m)).Stored := hg.updateNode fun _ => rfl
  exact hsource.updateNode fun _ => rfl

theorem joinAll [Words] (hg : g.Stored) (es : List (Nat × Nat)) : (g.joinAll es).Stored := by
  induction es generalizing g with
  | nil => exact hg
  | cons e es ih => exact ih (hg.join e.1 e.2 1)

theorem cut (hg : g.Stored) (s t : Nat) : (g.cut s t).Stored := by
  have hsource : (g.updateNode s (·.eraseChild t)).Stored := hg.updateNode fun _ => rfl
  exact hsource.updateNode fun _ => rfl

theorem sever (hg : g.Stored) (s t : Nat) : (g.sever s t).Stored := by
  rw [Diagram.sever]
  split
  · exact (hg.cut s t).cut t s
  · exact hg

theorem attach [Words] (hg : g.Stored) (label : α) (ps cs : List Nat) :
    (g.attach label ps cs).Stored := by
  refine joinAll (joinAll ?_ _) _
  intro k n hn
  have hget : ((g.nodes.insert g.nextId (.isolated g.nextId label)).get? k) = some n := hn
  rw [IdMap.get?_insert] at hget
  split at hget
  · cases hget
    exact Eq.symm ‹k = g.nextId›
  · exact hg k n hget

theorem removeNode (hg : g.Stored) (i : Nat) : (g.removeNode i).Stored := by
  intro k n hn
  rw [node?_removeNode] at hn
  split at hn
  · cases hn
  · cases hi : g.node? i with
    | none =>
      rw [hi] at hn
      exact hg k n hn
    | some gone =>
      rw [hi] at hn
      obtain ⟨m, hm, rfl⟩ := Option.map_eq_some_iff.1 hn
      exact hg k m hm

theorem removeNodes (hg : g.Stored) (ids : List Nat) : (g.removeNodes ids).Stored := by
  induction ids generalizing g with
  | nil => exact hg
  | cons i ids ih => exact ih (hg.removeNode i)

theorem prune [Words] (hg : g.Stored) : g.prune.1.Stored :=
  of_prune (fun _ hg => hg.removeNodes _) hg

end Stored

end Diagram

end Wiring
