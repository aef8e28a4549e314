import Wiring.Proofs.Diagram.Associativity
import Wiring.Proofs.Words.Composition

/-!
# Diagrams side by side

Diagrams that share no id can be put side by side as they are, and then it does not matter in which
groups this is done. The program raises ids first, by distances that do depend on the groups, so
that what comes out is the same up to ids only.

## Main definitions

- `Diagram.abut` — two diagrams side by side as they are
- `Diagram.Bracketing` — a list of diagrams taken in groups, in groups of groups and so on

## Main statements

- `Diagram.IsArrow.beside_congr` — isomorphic diagrams side by side
- `Diagram.IsArrow.beside_assoc`, `Diagram.isomorphic_parallel_append` — groups make no difference
- `Diagram.Bracketing.isomorphic_value` — in whatever way they are nested
-/

namespace Wiring.Diagram

open scoped Unlimited

variable {α : Type} {a b c f f' g g' h : Diagram α} {φ ψ : Nat → Nat} {gs hs : List (Diagram α)}

/-! ## As they are -/

/-- Puts `g` beside `f`, whose ids are apart already. -/
def abut (f g : Diagram α) : Diagram α where
  nodes := f.nodes.union g.nodes
  inputs := f.inputs ++ g.inputs
  outputs := f.outputs ++ g.outputs
  nextId := max f.nextId g.nextId

theorem beside_eq (f g : Diagram α) : f.beside g = f.abut (g.apartFrom f) := rfl

theorem beside_abut (hapart : ∀ k, f.contains k = true → g.contains k = false) :
    Beside f g (f.abut g) where
  nodes := rfl
  apart := hapart
  inputs := rfl
  outputs := rfl
  nextId_left := Nat.le_max_left _ _
  nextId_right := Nat.le_max_right _ _

theorem abut_assoc (f g h : Diagram α) : (f.abut g).abut h = f.abut (g.abut h) := by
  have hnodes : (f.nodes.union g.nodes).union h.nodes = f.nodes.union (g.nodes.union h.nodes) :=
    IdMap.ext fun k => by simp only [IdMap.get?_union, Option.or_assoc]
  simp only [abut, hnodes, List.append_assoc, Nat.max_assoc]

@[simp] theorem empty_beside (g : Diagram α) : empty.beside g = g := by
  have hclear : g.clearance empty = 0 := by
    unfold clearance
    cases g.minId? <;> rfl
  have hnodes : (empty : Diagram α).nodes.union g.nodes = g.nodes := IdMap.ext fun k => by
    rw [IdMap.get?_union]
    exact Option.or_none
  rw [beside_eq, apartFrom, hclear, shift, if_pos rfl, abut, hnodes]
  exact ext_of_node? (fun _ => rfl) rfl rfl (Nat.zero_max _)

@[simp] theorem beside_empty (f : Diagram α) : f.beside empty = f := by
  have hnodes : f.nodes.union empty.nodes = f.nodes := IdMap.ext fun k => by
    rw [IdMap.get?_union]
    exact Option.none_or
  show f.abut empty = f
  rw [abut, hnodes]
  exact ext_of_node? (fun _ => rfl) (List.append_nil _) (List.append_nil _) (Nat.max_zero _)

/-! ## Under other ids -/

/-- **Diagrams under other ids, side by side.** -/
theorem Beside.renames {u u' : Diagram α} (hu : Beside f g u) (hu' : Beside f' g' u')
    (hf : f.IsArrow) (hg : g.IsArrow) (hf' : f'.IsArrow) (hg' : g'.IsArrow)
    (hφ : Renames φ f f') (hψ : Renames ψ g g') : Renames (f.either φ ψ) u u' := by
  have hright := hu.apart_right
  refine renames_of_above (hu.coherent hf.coherent hg.coherent)
    (hu'.coherent hf'.coherent hg'.coherent) ?_ (fun k hk => ?_) (fun k hk => ?_) ?_ ?_
  · have hset {f g u : Diagram α} (hu : Beside f g u) :
        {k | u.contains k = true} = {k | f.contains k = true} ∪ {k | g.contains k = true} :=
      Set.ext fun k => hu.contains_iff
    rw [hset hu, hset hu']
    exact bijOn_either hφ.bijOn hψ.bijOn (fun k hk => hk) (fun k hk => hright k hk)
      fun k hk => false_of_apart hu'.apart hk
  · rcases hu.contains_iff.1 hk with hk | hk
    · rw [either_left hk, hu'.label?_left (hφ.contains hk), hφ.label k hk, hu.label?_left hk]
    · rw [either_right (hright k hk), hu'.symm.label?_left (hψ.contains hk), hψ.label k hk,
        hu.symm.label?_left hk]
  · rcases hu.contains_iff.1 hk with hk | hk
    · rw [either_left hk, hu'.above_left (hφ.contains hk), hu.above_left hk,
        map_either_left fun p hp => hf.coherent.contains_of_mem_above hp]
      exact hφ.above k hk
    · rw [either_right (hright k hk), hu'.symm.above_left (hψ.contains hk), hu.symm.above_left hk,
        map_either_right fun p hp => hright p (hg.coherent.contains_of_mem_above hp)]
      exact hψ.above k hk
  · rw [hu.inputs, hu'.inputs, List.map_append, hφ.inputs, hψ.inputs,
      map_either_left hf.contains_of_mem_inputs,
      map_either_right fun i hi => hright i (hg.contains_of_mem_inputs i hi)]
  · rw [hu.outputs, hu'.outputs, List.map_append, hφ.outputs, hψ.outputs,
      map_either_left hf.contains_of_mem_outputs,
      map_either_right fun o ho => hright o (hg.contains_of_mem_outputs o ho)]

namespace IsArrow

theorem beside (hf : f.IsArrow) (hg : g.IsArrow) : (f.beside g).IsArrow :=
  (beside_beside hg.coherent.id_eq).isArrow hf (hg.shift _)

/-- Whatever ids the two diagrams have moved to, what comes out is the same up to ids. -/
theorem isomorphic_abut (hf : f.IsArrow) (hg : g.IsArrow) (hf' : f'.IsArrow) (hg' : g'.IsArrow)
    (hff : Isomorphic f f') (hgg : Isomorphic g g')
    (hapart : ∀ k, f'.contains k = true → g'.contains k = false) :
    Isomorphic (f.beside g) (f'.abut g') := by
  obtain ⟨φ, hφ⟩ := hff
  obtain ⟨ψ, hψ⟩ := ((hg.isomorphic_apartFrom f).symm hg).trans hgg
  exact ⟨_, (beside_beside hg.coherent.id_eq).renames (beside_abut hapart) hf (hg.shift _) hf' hg'
    hφ hψ⟩

/-- **Isomorphic diagrams side by side are isomorphic.** -/
theorem beside_congr (hf : f.IsArrow) (hg : g.IsArrow) (hf' : f'.IsArrow) (hg' : g'.IsArrow)
    (hff : Isomorphic f f') (hgg : Isomorphic g g') :
    Isomorphic (f.beside g) (f'.beside g') :=
  hf.isomorphic_abut hg hf' (hg'.shift _) hff (hgg.trans (hg'.isomorphic_apartFrom f'))
    fun _ hk => not_contains_apartFrom hg'.coherent.id_eq hk

/-! ## In groups -/

/-- **Of three diagrams any two neighbours can be put together first.** -/
theorem beside_assoc (ha : a.IsArrow) (hb : b.IsArrow) (hc : c.IsArrow) :
    Isomorphic ((a.beside b).beside c) (a.beside (b.beside c)) := by
  obtain ⟨b', hbb, hb', hba⟩ := hb.exists_apart a.ids
  obtain ⟨c', hcc, hc', hcab⟩ := hc.exists_apart (a.ids ++ b'.ids)
  have hab (k : Nat) (hk : a.contains k = true) : b'.contains k = false := hba k (mem_ids.2 hk)
  have hac (k : Nat) (hk : a.contains k = true) : c'.contains k = false :=
    hcab k (List.mem_append_left _ (mem_ids.2 hk))
  have hbc (k : Nat) (hk : b'.contains k = true) : c'.contains k = false :=
    hcab k (List.mem_append_right _ (mem_ids.2 hk))
  have hl : ∀ k, (a.abut b').contains k = true → c'.contains k = false := by
    intro k hk
    rcases (beside_abut hab).contains_iff.1 hk with hk | hk
    · exact hac k hk
    · exact hbc k hk
  have hr : ∀ k, a.contains k = true → (b'.abut c').contains k = false := by
    intro k hk
    rw [← Bool.not_eq_true, (beside_abut hbc).contains_iff]
    exact fun h => h.elim (false_of_apart hab hk) (false_of_apart hac hk)
  have hab' := (beside_abut hab).isArrow ha hb'
  have hbc' := (beside_abut hbc).isArrow hb' hc'
  have hleft := (ha.beside hb).isomorphic_abut hc hab' hc'
    (ha.isomorphic_abut hb ha hb' (.refl ha.coherent) hbb hab) hcc hl
  have hright := ha.isomorphic_abut (hb.beside hc) ha hbc' (.refl ha.coherent)
    (hb.isomorphic_abut hc hb' hc' hbb hcc hbc) hr
  rw [abut_assoc] at hleft
  exact hleft.trans (hright.symm (ha.beside (hb.beside hc)))

end IsArrow

theorem parallel_cons (g : Diagram α) (gs : List (Diagram α)) :
    parallel (g :: gs) = g.besideAll gs := by
  show (empty.beside g).besideAll gs = _
  rw [empty_beside]

theorem tensor_eq (f g : Diagram α) : f.tensor g = f.beside g := parallel_cons f [g]

theorem IsArrow.besideAll (hf : f.IsArrow) (hgs : ∀ g ∈ gs, g.IsArrow) :
    (f.besideAll gs).IsArrow := by
  induction gs generalizing f with
  | nil => exact hf
  | cons g gs ih =>
    exact ih (hf.beside (hgs g List.mem_cons_self)) fun h hh => hgs h (List.mem_cons_of_mem _ hh)

theorem isArrow_parallel (hgs : ∀ g ∈ gs, g.IsArrow) : (parallel gs).IsArrow :=
  isArrow_empty.besideAll hgs

/-- Diagrams put beside `f` one after the other can be put beside it at once. -/
theorem IsArrow.isomorphic_besideAll (hf : f.IsArrow) (hgs : ∀ g ∈ gs, g.IsArrow) :
    Isomorphic (f.besideAll gs) (f.beside (parallel gs)) := by
  induction gs generalizing f with
  | nil =>
    show Isomorphic f (f.beside empty)
    rw [beside_empty]
    exact .refl hf.coherent
  | cons g gs ih =>
    have hg : g.IsArrow := hgs g List.mem_cons_self
    have hrest : ∀ h ∈ gs, h.IsArrow := fun h hh => hgs h (List.mem_cons_of_mem _ hh)
    have hpar := isArrow_parallel hrest
    rw [parallel_cons]
    have hsplit := (hf.beside_congr (hg.besideAll hrest) hf (hg.beside hpar) (.refl hf.coherent)
      (ih hg hrest)).symm (hf.beside (hg.besideAll hrest))
    exact ((ih (hf.beside hg) hrest).trans (hf.beside_assoc hg hpar)).trans hsplit

/-- **A list of diagrams can be cut in two.** -/
theorem isomorphic_parallel_append (hgs : ∀ g ∈ gs, g.IsArrow) (hhs : ∀ h ∈ hs, h.IsArrow) :
    Isomorphic (parallel (gs ++ hs)) ((parallel gs).beside (parallel hs)) := by
  have happend : parallel (gs ++ hs) = (parallel gs).besideAll hs := List.foldl_append
  rw [happend]
  exact (isArrow_parallel hgs).isomorphic_besideAll hhs

/-! ## Groups of groups -/

/-- **A list of diagrams in groups**, each of diagrams or of smaller groups. A group of two is what
    `Diagram.tensor` puts together. -/
inductive Bracketing (α : Type) where
  /-- A diagram on its own. -/
  | single (g : Diagram α)
  /-- What is put side by side in one go. -/
  | group (parts : List (Bracketing α))

namespace Bracketing

mutual

/-- The diagrams of a group in their order. -/
def leaves : Bracketing α → List (Diagram α)
  | single g => [g]
  | group parts => leavesAll parts

/-- The diagrams of several groups. -/
def leavesAll : List (Bracketing α) → List (Diagram α)
  | [] => []
  | t :: ts => t.leaves ++ leavesAll ts

end

mutual

/-- The diagram that the groups make, from the inside out. -/
def value [Words] : Bracketing α → Diagram α
  | single g => g
  | group parts => parallel (values parts)

/-- The diagrams that several groups make. -/
def values [Words] : List (Bracketing α) → List (Diagram α)
  | [] => []
  | t :: ts => t.value :: values ts

end

mutual

theorem isArrow_value : ∀ t : Bracketing α, (∀ g ∈ t.leaves, g.IsArrow) → t.value.IsArrow
  | single g, h => by
    rw [value]
    exact h g (by rw [leaves]; exact List.mem_singleton_self g)
  | group parts, h => by
    rw [value]
    exact isArrow_parallel (isArrow_of_mem_values parts (by rwa [leaves] at h))

theorem isArrow_of_mem_values : ∀ ts : List (Bracketing α),
    (∀ g ∈ leavesAll ts, g.IsArrow) → ∀ g ∈ values ts, g.IsArrow
  | [], _, g, hg => by
    rw [values] at hg
    cases hg
  | t :: ts, h, g, hg => by
    rw [leavesAll] at h
    rw [values] at hg
    rcases List.mem_cons.1 hg with rfl | hg
    · exact isArrow_value t fun g hg => h g (List.mem_append_left _ hg)
    · exact isArrow_of_mem_values ts (fun g hg => h g (List.mem_append_right _ hg)) g hg

end

mutual

/-- **However the diagrams of a list are grouped**, what they make is the same up to ids. -/
theorem isomorphic_value : ∀ t : Bracketing α, (∀ g ∈ t.leaves, g.IsArrow) →
    Isomorphic (parallel t.leaves) t.value
  | single g, h => by
    rw [leaves] at h ⊢
    rw [value, parallel_cons]
    exact .refl (h g (List.mem_singleton_self g)).coherent
  | group parts, h => by
    rw [leaves] at h ⊢
    rw [value]
    exact isomorphic_values parts h

/-- The first group is made, and the others go beside it. -/
theorem isomorphic_values : ∀ ts : List (Bracketing α), (∀ g ∈ leavesAll ts, g.IsArrow) →
    Isomorphic (parallel (leavesAll ts)) (parallel (values ts))
  | [], _ => by
    rw [leavesAll, values]
    exact .refl isArrow_empty.coherent
  | t :: ts, h => by
    rw [leavesAll] at h ⊢
    have ht : ∀ g ∈ t.leaves, g.IsArrow := fun g hg => h g (List.mem_append_left _ hg)
    have hts : ∀ g ∈ leavesAll ts, g.IsArrow := fun g hg => h g (List.mem_append_right _ hg)
    have hvalue := isArrow_value t ht
    have hvalues := isArrow_of_mem_values ts hts
    have hjoin : Isomorphic (parallel (leavesAll (t :: ts)))
        (t.value.beside (parallel (values ts))) := by
      rw [leavesAll]
      exact (isomorphic_parallel_append ht hts).trans
        ((isArrow_parallel ht).beside_congr (isArrow_parallel hts) hvalue
          (isArrow_parallel hvalues) (isomorphic_value t ht) (isomorphic_values ts hts))
    rw [leavesAll] at hjoin
    rw [values, parallel_cons]
    exact hjoin.trans ((hvalue.isomorphic_besideAll hvalues).symm (hvalue.besideAll hvalues))

end

/-! ## Within words -/

mutual

/-- **Groups are put together within words** that hold the spans of all diagrams in them. -/
theorem value_spec [Words] : ∀ t : Bracketing α, (∀ g ∈ t.leaves, g.Fitted ∧ g.DegreesHold) →
    Words.Holds (t.leaves.map span).sum →
    (t.value = letI := Unlimited.words; t.value) ∧
      FittedWithin (t.leaves.map span).sum (letI _ := Unlimited.words; t.value)
  | single g, h, _ => by
    rw [leaves] at h ⊢
    unfold value
    obtain ⟨hfitted, hdegrees⟩ := h g (List.mem_singleton_self g)
    exact ⟨rfl, hfitted, hdegrees, Nat.le_refl _⟩
  | group parts, h, hroom => by
    rw [leaves] at h hroom ⊢
    unfold value
    obtain ⟨heq, hparts, hspan⟩ := values_spec parts h hroom
    obtain ⟨hparallel, hwithin⟩ := parallel_spec hparts (hroom.mono hspan)
    exact ⟨by rw [heq, hparallel], hwithin.mono hspan⟩

/-- What the groups make has no larger spans together. -/
theorem values_spec [Words] : ∀ ts : List (Bracketing α),
    (∀ g ∈ leavesAll ts, g.Fitted ∧ g.DegreesHold) →
    Words.Holds ((leavesAll ts).map span).sum →
    (values ts = letI := Unlimited.words; values ts) ∧
      (∀ g ∈ (letI _ := Unlimited.words; values ts), g.Fitted ∧ g.DegreesHold) ∧
      ((letI _ := Unlimited.words; values ts).map span).sum ≤ ((leavesAll ts).map span).sum
  | [], _, _ => by
    unfold values
    exact ⟨rfl, List.forall_mem_nil _, Nat.zero_le _⟩
  | t :: ts, h, hroom => by
    rw [leavesAll] at h
    rw [leavesAll, List.map_append, List.sum_append] at hroom ⊢
    obtain ⟨heq, hwithin⟩ := value_spec t (fun g hg => h g (List.mem_append_left _ hg))
      (hroom.mono (Nat.le_add_right _ _))
    obtain ⟨heqs, hrest, hspan⟩ := values_spec ts (fun g hg => h g (List.mem_append_right _ hg))
      (hroom.mono (Nat.le_add_left _ _))
    unfold values
    rw [List.map_cons, List.sum_cons]
    exact ⟨by rw [heq, heqs], List.forall_mem_cons.2 ⟨⟨hwithin.fitted, hwithin.degrees⟩, hrest⟩,
      Nat.add_le_add hwithin.span_le hspan⟩

end

end Bracketing

end Wiring.Diagram
