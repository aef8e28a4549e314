import Wiring.Proofs.Diagram.EditRuns
import Wiring.Proofs.Diagram.RaisedQueries

/-!
# Edits under raised ids

An edit is written for the ids that it names. Raising those gives another edit, and what the two do
on a diagram and on the raised diagram is said by a relation that every way of combining edits
respects. New nodes get ids from the diagram, so that the ids in answers are raised as well.

## Main definitions

- `Edit.Raises` — an edit does on raised diagrams what another does on diagrams as they are

## Main statements

- `Edit.Raises.bind`, `Edit.Raises.forM`, `Edit.Raises.repeated` — combined edits
- `Edit.raises_addNode`, `Edit.raises_setLabel`, `Edit.raises_prune` — single edits
-/

namespace Wiring

open scoped Unlimited

namespace Edit

variable {α β γ δ ε : Type} {d : Nat} {r : β → γ} {r' : δ → ε}

/-- **The edit `e'` is `e` with raised ids**: on a raised diagram it answers what `e` answers, with
    the ids in it raised by `r`, or is refused for the raised reason, and it leaves the raised
    diagram. -/
def Raises (d : Nat) (r : β → γ) (e : Edit α β) (e' : Edit α γ) : Prop := ∀ g : Diagram α,
  e'.runOn (g.raise d) = (raiseAnswer d r (e.runOn g).1, (e.runOn g).2.raise d)

/-! ## Combined edits -/

theorem raises_pure (b : β) : Raises d r (pure b : Edit α β) (pure (r b)) := fun _ => rfl

theorem raises_get : Raises d (·.raise d) (get : Edit α (Diagram α)) get := fun _ => rfl

theorem Raises.bind {e : Edit α β} {e' : Edit α γ} {f : β → Edit α δ} {f' : γ → Edit α ε}
    (he : Raises d r e e') (hf : ∀ b, Raises d r' (f b) (f' (r b))) :
    Raises d r' (e >>= f) (e' >>= f') := by
  intro g
  rw [runOn_bind, runOn_bind, he]
  match e.runOn g with
  | (.ok b, mid) => exact hf b mid
  | (.error fault, mid) => rfl

theorem raises_ask {q : Diagram α → Except Fault β} {q' : Diagram α → Except Fault γ}
    (h : ∀ g : Diagram α, q' (g.raise d) = raiseAnswer d r (q g)) :
    Raises d r (ask q) (ask q') := by
  intro g
  rw [runOn_ask, runOn_ask, h]

theorem raises_change {f f' : Diagram α → Diagram α}
    (h : ∀ g : Diagram α, f' (g.raise d) = (f g).raise d) :
    Raises d id (change f) (change f') := by
  intro g
  rw [runOn_change, runOn_change, h]
  rfl

theorem Raises.discard {e : Edit α β} {e' : Edit α γ} (he : Raises d r e e') :
    Raises d id (discard e : Edit α PUnit) (discard e' : Edit α PUnit) := by
  rw [discard_eq_bind, discard_eq_bind]
  exact he.bind fun _ => raises_pure PUnit.unit

theorem Raises.repeated {e e' : Edit α Unit} (he : Raises d id e e') (n : Nat) :
    Raises d id (repeated e n) (repeated e' n) := by
  induction n with
  | zero => exact raises_pure ()
  | succ n ih => exact he.bind fun _ => ih

theorem Raises.forM {f : β → Edit α PUnit} {f' : γ → Edit α PUnit}
    (hf : ∀ b, Raises d id (f b) (f' (r b))) (l : List β) :
    Raises d id (l.forM f) ((l.map r).forM f') := by
  induction l with
  | nil => exact raises_pure PUnit.unit
  | cons b l ih => exact (hf b).bind fun _ => ih

/-- A loop over a tally of neighbours. -/
theorem Raises.forM_entries {f f' : Nat × Nat → Edit α PUnit}
    (hf : ∀ k m, Raises d id (f (k, m)) (f' (k + d, m))) (t : Tally) :
    Raises d id (t.entries.forM f) ((t.shift d).entries.forM f') :=
  Raises.forM (r := fun e => (e.1 + d, e.2)) (fun e => hf e.1 e.2) t.entries

/-! ## Single edits -/

theorem raises_addNode (label : α) (ps cs : List Nat) :
    Raises d (· + d) (addNode label ps cs)
      (addNode label (ps.map (· + d)) (cs.map (· + d))) := by
  refine (raises_ask fun g => g.checkNeighbours_raise).bind fun _ => ?_
  refine raises_get.bind fun g => ?_
  exact (raises_change fun g => g.attach_raise).bind fun _ => raises_pure g.nextId

theorem raises_setLabel (k : Nat) (label : α) :
    Raises d id (setLabel k label) (setLabel (k + d) label) := by
  refine (raises_ask fun g => g.find_raise).bind fun _ => ?_
  exact raises_change fun g => g.relabel_raise

theorem raises_removeNodes (ids : List Nat) :
    Raises d id (change (α := α) (·.removeNodes ids)) (change (·.removeNodes (ids.map (· + d)))) :=
  raises_change fun g => g.removeNodes_raise ids

theorem raises_sever (s t : Nat) :
    Raises d id (change (α := α) (·.sever s t)) (change (·.sever (s + d) (t + d))) :=
  raises_change fun _ => Diagram.sever_raise

theorem raises_prune : Raises d id (prune : Edit α Nat) prune := by
  intro g
  show (Except.ok (g.raise d).prune.2, (g.raise d).prune.1) = _
  rw [Diagram.prune_raise]
  rfl

end Edit

end Wiring
