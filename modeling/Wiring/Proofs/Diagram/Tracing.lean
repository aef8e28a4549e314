import Wiring.Proofs.Diagram.Trails
import Wiring.Proofs.Diagram.Walks

/-!
# Following a trail back

In a trail that a search leaves each node but the source has been reached from a marked node that
is one step closer. So the marks go down on the way back, which ends at the source after as many
steps as the first mark says.

## Main definitions

- `Diagram.Traces` — a trail that can be followed back

## Main statements

- `Diagram.Traces.exists_retrace` — the way back is found, and it is a route of that length
- `Diagram.Traces.walk` — marks come from walks
-/

namespace Wiring.Diagram

open scoped Unlimited

variable {α : Type} {g : Diagram α} {d : Direction} {source v w : Nat} {trail : Trail}
  {predecessors : IdMap Nat}

/-- **A trail that can be followed back**: the source can have no mark but the one that it starts
    with, and a mark at any other node is one step farther than that of a neighbour. -/
structure Traces (g : Diagram α) (d : Direction) (source : Nat) (trail : Trail) : Prop where
  root : ∀ mark, trail.get? source = some mark → mark = ⟨0, none⟩
  reached : ∀ v mark, trail.get? v = some mark → v ≠ source → ∃ u, mark.via = some u ∧
    g.Step d u v ∧ trail.contains u = true ∧ mark.distance = trail.depth u + 1

namespace Traces

variable (h : Traces g d source trail)
include h

theorem depth_source : trail.depth source = 0 := by
  rw [Trail.depth]
  cases hsource : trail.get? source with
  | none => rfl
  | some mark => rw [h.root mark hsource]; rfl

/-- A marked node other than the source has been reached from one that is closer. -/
theorem exists_closer (hv : trail.contains v = true) (hne : v ≠ source) :
    ∃ u, trail.predecessors.get? v = some u ∧ g.Step d u v ∧ trail.contains u = true ∧
      trail.depth v = trail.depth u + 1 := by
  obtain ⟨mark, hmark⟩ := IdMap.contains_iff.1 hv
  obtain ⟨u, hvia, hstep, hu, hdistance⟩ := h.reached v mark hmark hne
  refine ⟨u, ?_, hstep, hu, by rw [Trail.depth_of_get? hmark, hdistance]⟩
  rw [Trail.get?_predecessors, hmark]
  exact hvia

/-- **The way back is found.** The predecessors that have been used up on it belong to nodes farther
    away. -/
theorem exists_retrace (hv : trail.contains v = true)
    (hleft : ∀ w, trail.contains w = true → trail.depth w ≤ trail.depth v →
      predecessors.get? w = trail.predecessors.get? w) :
    ∃ path, Trail.retrace predecessors source v = some path ∧
      Trail.WalksBack trail.predecessors source v (some path) ∧ g.Route d source v path ∧
      path.length = trail.depth v + 1 := by
  induction hk : trail.depth v generalizing v predecessors with
  | zero =>
    have hsource : v = source := by
      by_contra hne
      obtain ⟨u, -, -, -, hdepth⟩ := h.exists_closer hv hne
      omega
    subst hsource
    exact ⟨[v], Trail.retrace_source, .source, .singleton g d v, rfl⟩
  | succ k ih =>
    have hne : v ≠ source := by
      rintro rfl
      rw [h.depth_source] at hk
      cases hk
    obtain ⟨u, hback, hstep, hu, hdepth⟩ := h.exists_closer hv hne
    have hleft' (w : Nat) (hw : trail.contains w = true) (hle : trail.depth w ≤ trail.depth u) :
        (predecessors.erase v).get? w = trail.predecessors.get? w := by
      have hwv : w ≠ v := by
        rintro rfl
        omega
      rw [IdMap.get?_erase, if_neg hwv, hleft w hw (by omega)]
    obtain ⟨path, hpath, hwalks, hroute, hlength⟩ := ih hu hleft' (by omega)
    refine ⟨path ++ [v], ?_, .back hne hback hwalks, hroute.snoc hstep, by
      rw [List.length_append, hlength]; rfl⟩
    rw [Trail.retrace_some hne ((hleft v hv (Nat.le_refl _)).trans hback), hpath]
    rfl

/-- The path that a trail records to a marked node has as many edges as the mark says. -/
theorem exists_pathTo? (hv : trail.contains v = true) :
    ∃ path, trail.pathTo? source v = some path ∧
      Trail.WalksBack trail.predecessors source v (some path) ∧ g.Route d source v path ∧
      path.length = trail.depth v + 1 :=
  h.exists_retrace hv fun _ _ _ => rfl

/-- There is a walk of as many steps as a mark says. -/
theorem walk (hv : trail.contains v = true) : g.Walk d source (trail.depth v) v := by
  obtain ⟨path, -, -, hroute, hlength⟩ := h.exists_pathTo? hv
  exact exists_route_iff.1 ⟨path, hroute, hlength⟩

end Traces

end Wiring.Diagram
