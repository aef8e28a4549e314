import Wiring.Proofs.Diagram.Dropping
import Wiring.Proofs.Diagram.Mutations
import Wiring.Proofs.Words.Room

/-!
# Lists of edges

The order in which edges are added makes no difference, since the counts in two tallies go up one by
one wherever they are. Dropping an edge that has just been added restores the diagram: the counts go
down again, and an entry that was new vanishes with its last edge. Together the two undo a list of
new edges in any order.

## Main statements

- `Diagram.edges_joinAll` — the multiplicities after adding edges
- `Diagram.joinAll_perm` — edges are added in any order
- `Diagram.dropEdge_join` — an edge is added and dropped
- `Diagram.Coherent.addEdges_undone` — what has been added is dropped in any order
-/

namespace Wiring

open scoped Unlimited

namespace Tally

variable {t : Tally} {k : Nat}

theorem add_comm (t : Tally) (j m k n : Nat) : (t.add j m).add k n = (t.add k n).add j m := by
  by_cases hjk : j = k
  · rw [hjk, add_add, add_add, Nat.add_comm]
  · unfold add
    by_cases hm : m = 0
    · simp [hm]
    · by_cases hn : n = 0
      · simp [hn]
      · simp only [if_neg hm, if_neg hn]
        refine IdMap.ext fun i => ?_
        simp only [IdMap.get?_alter]
        by_cases hi : i = j
        · simp [hi, hjk]
        · simp [hi, Ne.symm hjk]

/-- One edge more and one less: an entry that was not there is gone again. -/
theorem Positive.decrement_add (ht : t.Positive) (k : Nat) : (t.add k 1).decrement k = t := by
  refine ((ht.add k 1).decrement k).ext ht fun j => ?_
  rw [count_decrement, count_add, Nat.add_sub_cancel]

end Tally

namespace Diagram

variable {α : Type} {g h : Diagram α} {s t u v : Nat} {es es' : List (Nat × Nat)}

/-! ## Adding edges -/

/-- As many edges are new as the list says, if their sources exist. -/
theorem edges_joinAll (hes : ∀ e ∈ es, g.contains e.1 = true) (u v : Nat) :
    (g.joinAll es).edges u v = g.edges u v + es.count (u, v) := by
  cases hu : g.contains u with
  | true =>
    rw [edges, (below_joinAll es hu).count_eq, List.count_append, edges, List.count_eq_countP,
      List.count_eq_countP, List.count_eq_countP, List.countP_map, List.countP_filter]
    refine congrArg _ (List.countP_congr fun e _ => ?_)
    simp [Prod.ext_iff, and_comm]
  | false =>
    have hnone : (u, v) ∉ es := fun hmem => by
      rw [hes _ hmem] at hu
      cases hu
    rw [List.count_eq_zero.2 hnone, edges, below_eq_nil ((contains_joinAll es).trans hu), edges,
      below_eq_nil hu]
    rfl

theorem join_comm (g : Diagram α) (s t m u v n : Nat) :
    (g.join s t m).join u v n = (g.join u v n).join s t m := by
  have hchild (g : Diagram α) : (g.updateNode s (·.addChild t m)).updateNode u (·.addChild v n) =
      (g.updateNode u (·.addChild v n)).updateNode s (·.addChild t m) :=
    updateNode_comm fun _ node => by simp only [Node.addChild, Tally.add_comm node.children v]
  have hparent (g : Diagram α) :
      (g.updateNode t (·.addParent s m)).updateNode v (·.addParent u n) =
        (g.updateNode v (·.addParent u n)).updateNode t (·.addParent s m) :=
    updateNode_comm fun _ node => by simp only [Node.addParent, Tally.add_comm node.parents u]
  -- a new child and a new parent touch different tallies of whatever node they meet at
  have hcross (g : Diagram α) (s t m u v n : Nat) :
      (g.updateNode s (·.addChild t m)).updateNode v (·.addParent u n) =
        (g.updateNode v (·.addParent u n)).updateNode s (·.addChild t m) :=
    updateNode_comm fun _ _ => rfl
  unfold join
  rw [← hcross _ u v n s t m, hchild, hparent, hcross _ s t m u v n]

/-- **Edges are added in any order.** -/
theorem joinAll_perm (g : Diagram α) (h : es.Perm es') : g.joinAll es = g.joinAll es' :=
  h.foldl_eq' (fun e _ e' _ g => g.join_comm e.1 e.2 1 e'.1 e'.2 1) g

/-! ## Dropping what has been added -/

theorem updateNode_undo {f f' : Node α → Node α} (h : ∀ n, g.node? s = some n → f' (f n) = n) :
    (g.updateNode s f).updateNode s f' = g := by
  refine ext_of_node? (fun k => ?_) rfl rfl rfl
  rw [node?_updateNode, node?_updateNode, if_pos rfl]
  split
  · rename_i hk
    rw [hk]
    cases hs : g.node? s with
    | none => rfl
    | some n => exact congrArg some (h n hs)
  · rw [node?_updateNode, if_neg ‹_›]

/-- **An edge that has just been added can be dropped again.** -/
theorem dropEdge_join (hg : g.Positive) (hs : g.contains s = true) (ht : g.contains t = true) :
    (g.join s t 1).dropEdge s t = g := by
  have hsource : (g.updateNode s (·.addChild t 1)).updateNode s (·.dropChildEdge t) = g :=
    updateNode_undo fun n hn => by
      simp only [Node.addChild, Node.dropChildEdge, (hg s n hn).2.decrement_add]
  have htarget : (g.updateNode t (·.addParent s 1)).updateNode t (·.dropParentEdge s) = g :=
    updateNode_undo fun n hn => by
      simp only [Node.addParent, Node.dropParentEdge, (hg t n hn).1.decrement_add]
  have hcross (g : Diagram α) :
      (g.updateNode t (·.addParent s 1)).updateNode s (·.dropChildEdge t) =
        (g.updateNode s (·.dropChildEdge t)).updateNode t (·.addParent s 1) :=
    updateNode_comm fun _ _ => rfl
  rw [dropEdge, contains_join, contains_join, hs, ht, Bool.and_self, if_pos rfl, join, hcross,
    hsource, htarget]

theorem dropEdges_joinAll (hg : g.Coherent)
    (hes : ∀ e ∈ es, g.contains e.1 = true ∧ g.contains e.2 = true) :
    (g.joinAll es).dropEdges es = g := by
  induction es with
  | nil => rfl
  | cons e es ih =>
    obtain ⟨hends, hes⟩ := List.forall_mem_cons.1 hes
    have hlast : g.joinAll (e :: es) = (g.joinAll es).join e.1 e.2 1 := by
      rw [joinAll_perm g (List.perm_append_singleton e es).symm, joinAll_append]
      rfl
    have hdrop : (g.joinAll (e :: es)).dropEdge e.1 e.2 = g.joinAll es := by
      rw [hlast, dropEdge_join (hg.joinAll hes).positive]
      · rw [contains_joinAll, hends.1]
      · rw [contains_joinAll, hends.2]
    change ((g.joinAll (e :: es)).dropEdge e.1 e.2).dropEdges es = g
    rw [hdrop, ih hes]

/-- New edges are all checked before any is added. -/
theorem runOn_addEdges_eq_ok_iff [Words] : (Edit.addEdges es).runOn g = (.ok (), h) ↔
    (∀ e ∈ es, g.checkEdge e.1 e.2 = .ok ()) ∧ g.joinAll es = h := by
  rw [← checkEdges_eq_ok_iff, Edit.addEdges, Edit.runOn_ask_bind]
  cases g.checkEdges es with
  | ok => simp [Edit.runOn_change]
  | error fault => simp

section Machine

open scoped Machine

end Machine

end Diagram

end Wiring
