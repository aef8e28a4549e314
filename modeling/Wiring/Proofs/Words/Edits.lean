import Mathlib.Algebra.BigOperators.Ring.List
import Mathlib.Algebra.Ring.Nat
import Wiring.Proofs.Diagram.EditRuns
import Wiring.Proofs.Words.Room

/-!
# Edits within words

An edit uses something up. The costs of an edit are what a diagram must have left of that, so that
the edit does the same as another one, which reckons with words that hold every number; what it does
not need is left for the edits that follow. So costs are added up along a program. The most common
reserve is room in words: one for every new node, and one for every edge that comes with it.

## Main definitions

- `Edit.Reserve` — something that edits use up
- `Edit.Reserve.roomy` — room in words
- `Edit.Costs` — an edit that agrees with another one wherever there is enough left for its costs

## Main statements

- `Edit.Costs.bind`, `Edit.Costs.repeated`, `Edit.Costs.forM` — the costs of programs
- `Edit.costs_addNode` — the costs of a new node
-/

namespace Wiring.Edit

variable {α β γ : Type} {g : Diagram α} {m n : Nat}

/-- **A reserve**: what diagrams have left of something that edits use up. -/
structure Reserve (α : Type) where
  /-- The diagram has so much left. -/
  Has : Diagram α → Nat → Prop
  mono : ∀ {g m n}, Has g n → m ≤ n → Has g m

/-- The room that words have for new nodes and new edges. -/
def Reserve.roomy [Words] : Reserve α := ⟨Diagram.Roomy, Diagram.Roomy.mono⟩

/-- **The edit costs `n`**: where so much is left and `m` more, it does what `e'` does and leaves
    `m`. -/
def Costs (R : Reserve α) (e e' : Edit α β) (n : Nat) : Prop :=
  ∀ g m, R.Has g (n + m) → e.runOn g = e'.runOn g ∧ R.Has (e.runOn g).2 m

namespace Costs

variable {R : Reserve α} {e e' : Edit α β}

theorem runOn_eq (he : Costs R e e' n) (hg : R.Has g n) : e.runOn g = e'.runOn g :=
  (he g 0 hg).1

theorem mono (he : Costs R e e' m) (hmn : m ≤ n) : Costs R e e' n := by
  intro g r hg
  obtain ⟨heq, hleft⟩ := he g (n - m + r) (R.mono hg (by omega))
  exact ⟨heq, R.mono hleft (Nat.le_add_left _ _)⟩

/-- An edit that uses nothing up is free. -/
theorem free (he : ∀ g m, R.Has g m → R.Has (e.runOn g).2 m) : Costs R e e 0 := fun g m hg =>
  ⟨rfl, he g m (R.mono hg (Nat.le_add_left _ _))⟩

/-! ## Programs -/

theorem pure (b : β) : Costs R (pure b : Edit α β) (pure b) 0 := free fun _ _ hg => hg

theorem throw (fault : Fault) : Costs R (throw fault : Edit α β) (throw fault) 0 :=
  free fun _ _ hg => hg

theorem ask (question : Diagram α → Except Fault β) : Costs R (ask question) (ask question) 0 :=
  free fun g m hg => by rwa [runOn_ask]

/-- **Costs are added up**, even if the first edit is refused. -/
theorem bind_of_runs {f f' : β → Edit α γ} (he : Costs R e e' m)
    (hf : ∀ g b h, e'.runOn g = (.ok b, h) → Costs R (f b) (f' b) n) :
    Costs R (e >>= f) (e' >>= f') (m + n) := by
  intro g r hg
  rw [Nat.add_assoc] at hg
  obtain ⟨heq, hleft⟩ := he g (n + r) hg
  rw [runOn_bind, runOn_bind, ← heq]
  cases hrun : e.runOn g with
  | mk answer h =>
    rw [hrun] at hleft
    cases answer with
    | ok b => exact hf g b h (heq.symm.trans hrun) h r hleft
    | error fault => exact ⟨rfl, R.mono hleft (Nat.le_add_left _ _)⟩

theorem bind {f f' : β → Edit α γ} (he : Costs R e e' m) (hf : ∀ b, Costs R (f b) (f' b) n) :
    Costs R (e >>= f) (e' >>= f') (m + n) := he.bind_of_runs fun _ b _ _ => hf b

theorem discard (he : Costs R e e' n) :
    Costs R (discard e : Edit α PUnit) (discard e') n := by
  rw [discard_eq_bind, discard_eq_bind]
  exact he.bind fun _ => .pure _

theorem repeated {e e' : Edit α Unit} (he : Costs R e e' n) (times : Nat) :
    Costs R (repeated e times) (repeated e' times) (times * n) := by
  induction times with
  | zero => exact (Costs.pure ()).mono (Nat.zero_le _)
  | succ times ih =>
    rw [Nat.succ_mul, Nat.add_comm (times * n)]
    exact he.bind fun _ => ih

theorem forM {f f' : β → Edit α PUnit} {cost : β → Nat} {items : List β}
    (hf : ∀ x ∈ items, Costs R (f x) (f' x) (cost x)) :
    Costs R (items.forM f) (items.forM f') (items.map cost).sum := by
  induction items with
  | nil => exact .pure _
  | cons x items ih =>
    obtain ⟨hx, hrest⟩ := List.forall_mem_cons.1 hf
    have hcons (f : β → Edit α PUnit) : (x :: items).forM f = f x >>= fun _ => items.forM f :=
      List.forM_cons
    rw [hcons, hcons, List.map_cons, List.sum_cons]
    exact hx.bind fun _ => ih hrest

end Costs

/-- A loop over a tally, whose steps cost the same for each edge. -/
theorem Costs.forM_entries {R : Reserve α} {f f' : Nat × Nat → Edit α PUnit}
    (hf : ∀ e, Costs R (f e) (f' e) (e.2 * n)) (t : Tally) :
    Costs R (t.entries.forM f) (t.entries.forM f') (t.spread.length * n) := by
  have hsum : (t.entries.map fun e => e.2 * n).sum = t.spread.length * n := by
    rw [Tally.spread, List.length_flatMap, List.sum_map_mul_right]
    simp
  exact hsum ▸ Costs.forM fun e _ => hf e

/-- **A new node** costs one, and one for each of its edges. -/
theorem costs_addNode [Words] (label : α) (ps cs : List Nat) :
    Costs .roomy (addNode label ps cs) (letI _ := Unlimited.words; addNode label ps cs)
      (1 + ps.length + cs.length) := by
  intro g m hg
  unfold addNode
  rw [runOn_ask_bind, runOn_ask_bind]
  cases g.checkNeighbours ps cs with
  | ok _ =>
    refine ⟨?_, Diagram.Roomy.attach hg⟩
    show (Except.ok g.nextId, g.attach label ps cs) = (.ok g.nextId, _)
    rw [(Diagram.Roomy.mono hg (Nat.le_add_right _ _)).attach_eq]
  | error _ => exact ⟨rfl, Diagram.Roomy.mono hg (Nat.le_add_left _ _)⟩

end Wiring.Edit
