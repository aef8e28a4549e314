import Wiring.Diagram.Distance

/-!
# Trails

A search adds marks to its trail, one node at a time: those of the neighbours that had none. From a
trail the way back to the source is retraced by the nodes that each node was reached from.

## Main definitions

- `Trail.depth` — the distance noted down at a node
- `Trail.Grows` — marks are added at nodes that are reached from one node
- `Trail.WalksBack` — the loop that goes back to the source

## Main statements

- `Trail.exists_grows` — what is discovered at one node
- `Trail.retrace_source`, `Trail.retrace_none`, `Trail.retrace_some` — the steps of the way back
- `searchFrom_cons`, `searchFrom_cons_missing` — the rounds of a search
-/

namespace Wiring

open scoped Unlimited

namespace Trail

variable {t t' : Trail} {u v k distance source : Nat} {fresh : List Nat} {predecessors : IdMap Nat}

/-- The distance that is noted down at a node; 0 where nothing is. -/
def depth (t : Trail) (v : Nat) : Nat := ((t.get? v).map (·.distance)).getD 0

theorem depth_of_get? {mark : Mark} (h : t.get? v = some mark) : t.depth v = mark.distance := by
  rw [depth, h]
  rfl

theorem get?_distances : t.distances.get? v = (t.get? v).map (·.distance) := IdMap.get?_map

theorem get?_predecessors : t.predecessors.get? v = (t.get? v).bind (·.via) := IdMap.get?_filterMap

theorem contains_distances : t.distances.contains v = t.contains v := by
  rw [IdMap.contains, get?_distances, Option.isSome_map, IdMap.contains]

theorem get?_distances_eq_some_iff :
    t.distances.get? v = some k ↔ t.contains v = true ∧ t.depth v = k := by
  rw [get?_distances, depth, IdMap.contains]
  cases t.get? v <;> simp

theorem get?_start : (start source).get? v = if v = source then some ⟨0, none⟩ else none := by
  rw [start, IdMap.get?_insert, IdMap.get?_empty]

theorem contains_start : (start source).contains v = true ↔ v = source := by
  rw [IdMap.contains, get?_start]
  split <;> simp [*]

/-- **Marks are added** at nodes that had none: all of them are reached from `u`, which is at that
    distance. -/
structure Grows (t t' : Trail) (u distance : Nat) (fresh : List Nat) : Prop where
  nodup : fresh.Nodup
  unmarked : ∀ v ∈ fresh, t.contains v = false
  get? : ∀ v, t'.get? v = if v ∈ fresh then some ⟨distance + 1, some u⟩ else t.get? v

namespace Grows

theorem refl (t : Trail) (u distance : Nat) : Grows t t u distance [] :=
  ⟨.nil, fun _ hv => (nomatch hv), fun _ => rfl⟩

/-- A mark more. -/
theorem cons (h : Grows (t.insert v ⟨distance + 1, some u⟩) t' u distance fresh)
    (hv : t.contains v = false) : Grows t t' u distance (v :: fresh) := by
  have hunmarked {w : Nat} (hw : w ∈ fresh) : w ≠ v ∧ t.contains w = false := by
    have hfalse := h.unmarked w hw
    rwa [IdMap.contains_insert, Bool.or_eq_false_iff, beq_eq_false_iff_ne] at hfalse
  refine ⟨List.nodup_cons.2 ⟨fun hmem => (hunmarked hmem).1 rfl, h.nodup⟩, ?_, fun w => ?_⟩
  · exact List.forall_mem_cons.2 ⟨hv, fun w hw => (hunmarked hw).2⟩
  · rw [h.get?, IdMap.get?_insert]
    by_cases hw : w = v
    · subst hw
      simp
    · simp [hw]

variable (h : Grows t t' u distance fresh)
include h

theorem contains_iff : t'.contains v = true ↔ t.contains v = true ∨ v ∈ fresh := by
  rw [IdMap.contains, h.get?]
  split
  · simp [*]
  · simp [*, IdMap.contains]

theorem contains_of_contains (hv : t.contains v = true) : t'.contains v = true :=
  h.contains_iff.2 (.inl hv)

theorem contains_of_mem (hv : v ∈ fresh) : t'.contains v = true := h.contains_iff.2 (.inr hv)

theorem not_contains (hv : v ∈ fresh) : ¬t.contains v = true := by
  rw [h.unmarked v hv]
  exact Bool.false_ne_true

theorem get?_of_contains (hv : t.contains v = true) : t'.get? v = t.get? v := by
  rw [h.get?, if_neg fun hmem => h.not_contains hmem hv]

theorem depth_of_contains (hv : t.contains v = true) : t'.depth v = t.depth v := by
  rw [depth, h.get?_of_contains hv]
  rfl

theorem depth_of_mem (hv : v ∈ fresh) : t'.depth v = distance + 1 := by
  rw [depth, h.get?, if_pos hv]
  rfl

end Grows

/-- What is discovered at `u` is marked and queued, each node once. -/
theorem exists_grows (u distance : Nat) (neighbours queue : List Nat) (trail : Trail) :
    ∃ fresh, (∀ v, v ∈ fresh ↔ v ∈ neighbours ∧ trail.contains v = false) ∧
      (neighbours.foldl (discover u distance) (queue, trail)).1 = queue ++ fresh ∧
      trail.Grows (neighbours.foldl (discover u distance) (queue, trail)).2 u distance fresh := by
  induction neighbours generalizing queue trail with
  | nil => exact ⟨[], by simp, (List.append_nil queue).symm, .refl trail u distance⟩
  | cons w neighbours ih =>
    rw [List.foldl_cons, discover]
    dsimp only
    by_cases hw : trail.contains w = true
    · obtain ⟨fresh, hmem, hqueue, hgrows⟩ := ih queue trail
      rw [if_pos hw]
      refine ⟨fresh, fun v => ?_, hqueue, hgrows⟩
      rw [hmem, List.mem_cons]
      refine ⟨fun h => ⟨.inr h.1, h.2⟩, fun h => ⟨h.1.resolve_left ?_, h.2⟩⟩
      rintro rfl
      rw [hw] at h
      cases h.2
    · obtain ⟨fresh, hmem, hqueue, hgrows⟩ :=
        ih (queue ++ [w]) (trail.insert w ⟨distance + 1, some u⟩)
      rw [if_neg hw]
      rw [Bool.not_eq_true] at hw
      refine ⟨w :: fresh, fun v => ?_, by rw [hqueue, List.append_assoc]; rfl, hgrows.cons hw⟩
      have hcontains : (trail.insert w ⟨distance + 1, some u⟩).contains v = false ↔
          v ≠ w ∧ trail.contains v = false := by
        rw [IdMap.contains_insert, Bool.or_eq_false_iff, beq_eq_false_iff_ne]
      rw [List.mem_cons, List.mem_cons, hmem, hcontains]
      by_cases hv : v = w
      · simp [hv, hw]
      · simp [hv]

/-! ## The way back -/

/-- **The loop that goes back** from a node, without a bound: it ends at the source, with the nodes
    on the way, or at another node that has no predecessor. -/
inductive WalksBack (predecessors : IdMap Nat) (source : Nat) : Nat → Option (List Nat) → Prop where
  | source : WalksBack predecessors source source (some [source])
  | stuck {v : Nat} (hne : v ≠ source) (hnone : predecessors.get? v = none) :
      WalksBack predecessors source v none
  | back {v u : Nat} {answer : Option (List Nat)} (hne : v ≠ source)
      (hback : predecessors.get? v = some u) (hrest : WalksBack predecessors source u answer) :
      WalksBack predecessors source v (answer.map (· ++ [v]))

theorem retrace_source : retrace predecessors source source = some [source] := by
  rw [retrace, if_pos rfl]

theorem retrace_none (hne : v ≠ source) (h : predecessors.get? v = none) :
    retrace predecessors source v = none := by
  rw [retrace, if_neg hne]
  split
  · rfl
  · rename_i u hu
    rw [h] at hu
    cases hu

theorem retrace_some (hne : v ≠ source) (h : predecessors.get? v = some u) :
    retrace predecessors source v =
      (retrace (predecessors.erase v) source u).map (· ++ [v]) := by
  rw [retrace, if_neg hne]
  split
  · rename_i hnone
    rw [h] at hnone
    cases hnone
  · rename_i u' hu
    obtain rfl : u = u' := Option.some.inj (h.symm.trans hu)
    rfl

end Trail

/-! ## Rounds of a search -/

section Search

variable {α : Type} {direction : Direction} {target : Option Nat} {unvisited : IdMap (Node α)}
  {u : Nat} {rest : List Nat} {trail : Trail}

theorem searchFrom_cons_missing (hu : target ≠ some u) (hn : unvisited.get? u = none) :
    searchFrom direction target unvisited (u :: rest) trail = .error (.dangling u) := by
  rw [searchFrom, if_neg hu]
  split
  · rfl
  · rename_i n hn'
    rw [hn] at hn'
    cases hn'

theorem searchFrom_cons {n : Node α} (hu : target ≠ some u) (hn : unvisited.get? u = some n) :
    searchFrom direction target unvisited (u :: rest) trail =
      let s := (n.neighbours direction).foldl
        (discover u (((trail.get? u).map (·.distance)).getD 0)) (rest, trail)
      searchFrom direction target (unvisited.erase u) s.1 s.2 := by
  rw [searchFrom, if_neg hu]
  split
  · rename_i hn'
    rw [hn] at hn'
    cases hn'
  · rename_i n' hn'
    rw [hn, Option.some.injEq] at hn'
    subst hn'
    rfl

end Search

end Wiring
